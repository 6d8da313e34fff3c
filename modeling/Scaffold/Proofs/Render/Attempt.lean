import Scaffold.Proofs.Render.Scope
import Scaffold.Proofs.Render.Steady

/-!
Tags that are begun and not completed. The replacement of tags goes by their texts, so it may well
take a part of an attempt (`exists_attempt_changed`). Main statement: an attempt stays as it is if
no tag has a text that meets its own, and all of them stay in a steady stub (`renderText_attempts`).
-/

namespace Scaffold

namespace Text

/-- One text is within the other, or an end of one is a beginning of the other. -/
def Meets (a b : Text) : Prop := a <:+: b ∨ b <:+: a ∨ Overlaps a b ∨ Overlaps b a

instance (a b : Text) : Decidable (Meets a b) := inferInstanceAs (Decidable (_ ∨ _ ∨ _ ∨ _))

theorem Meets.symm {a b : Text} (h : Meets a b) : Meets b a := by
  rcases h with h | h | h | h
  · exact .inr (.inl h)
  · exact .inl h
  · exact .inr (.inr (.inr h))
  · exact .inr (.inr (.inl h))

theorem meets_of_suffix {part a b : Text} (hne : part ≠ []) (hsuf : part <:+ a)
    (h : part <+: b ∨ b <+: part) : Meets a b := by
  rcases h with hpre | hpre
  · by_cases ha : part = a
    · exact .inl (ha ▸ hpre.isInfix)
    · by_cases hb : part = b
      · exact .inr (.inl (hb ▸ hsuf.isInfix))
      · exact .inr (.inr (.inl ⟨part, hne, ha, hb, hsuf, hpre⟩))
  · exact .inr (.inl (hpre.isInfix.trans hsuf.isInfix))

/-- A replacement leaves a text alone that its pattern does not meet. -/
theorem infix_replace {pattern a t : Text} (hne : pattern ≠ []) (value : Text)
    (h : ¬ Meets pattern a) (hin : a <:+: t) : a <:+: replace pattern value t := by
  obtain ⟨before, after, rfl⟩ := hin
  rw [List.append_assoc]
  induction hn : before.length using Nat.strong_induction_on generalizing before with
  | _ n ih =>
  subst hn
  cases before with
  | nil =>
    have hpass : ∀ m, m ≠ [] → m <:+ a → ¬ pattern <+: m ++ after := fun m hm hsuf hpre =>
      h (meets_of_suffix hm hsuf
        (List.prefix_or_prefix_of_prefix (List.prefix_append m after) hpre)).symm
    rw [List.nil_append, replace_pass hne value hpass]
    exact (List.prefix_append a _).isInfix
  | cons c before =>
    by_cases hhead : pattern <+: c :: before ++ (a ++ after)
    · obtain ⟨rest, hrest⟩ := hhead
      -- An occurrence that does not end before the text begins would meet it.
      obtain ⟨gap, hbefore, rfl⟩ : ∃ gap, c :: before = pattern ++ gap ∧
          rest = gap ++ (a ++ after) := by
        rcases List.append_eq_append_iff.mp hrest with hgap | ⟨part, hpattern, hpart⟩
        · exact hgap
        · by_cases hnil : part = []
          · subst hnil
            exact ⟨[], by rw [hpattern, List.append_nil, List.append_nil], hpart.symm⟩
          · refine absurd (meets_of_suffix hnil ⟨_, hpattern.symm⟩ ?_) h
            exact List.prefix_or_prefix_of_prefix ⟨rest, hpart.symm⟩ (List.prefix_append a after)
      have hshort : gap.length < (c :: before).length := by
        have hlength := List.length_pos_iff.mpr hne
        rw [hbefore, List.length_append]
        omega
      rw [← hrest, replace_append_self hne]
      exact (ih _ hshort gap rfl).trans (List.suffix_append value _).isInfix
    · rw [List.cons_append] at hhead ⊢
      rw [replace_cons_of_not_head hne value hhead]
      exact (ih _ (Nat.lt_succ_self _) before rfl).trans (List.suffix_cons c _).isInfix

end Text

namespace Tag

/-- The scanner begins a tag with this text and does not complete it: the text goes up to the
character that has no place in the tag, or to the end of the source. -/
def IsAttempt (source attempt : Text) : Prop :=
  ∃ before after, source = before ++ attempt ++ after ∧
    (scanned (before ++ attempt)).state.isInside = true ∧
    (scanned (before ++ attempt)).code = attempt ∧
    ∀ c ∈ after.head?, (scanned (before ++ attempt)).state.step c = .abandon

theorem attempt_infix_splice {source attempt : Text} (h : IsAttempt source attempt)
    (value : Tag → Text) : attempt <:+: splice value source := by
  obtain ⟨before, after, rfl, hinside, hcode, hstop⟩ := h
  have hheld := (held_inside hinside).trans hcode
  obtain ⟨pieces, gap, h⟩ := exists_gaps (before ++ attempt)
  cases after with
  | nil =>
    rw [List.append_nil, splice_woven value h.read_eq h.scan_eq h.laid, hheld, weave_append]
    exact (List.suffix_append _ attempt).isInfix
  | cons c after =>
    -- The abandoned text is in a gap now, and the gaps that are read stay.
    obtain ⟨more, hmore⟩ := h.outside (Scan.advance_abandon (hstop c rfl))
    obtain ⟨pieces', gap', h', hpre⟩ := hmore.append after
    have hread : attempt <:+: weave value pieces (gap ++ (attempt ++ more)) := by
      rw [weave_append]
      exact ⟨weave value pieces gap, more, by simp⟩
    rw [List.append_cons, splice_woven value h'.read_eq h'.scan_eq h'.laid, weave_append]
    rw [hheld] at hpre
    exact (hread.trans (hpre value).isInfix).trans (List.prefix_append _ _).isInfix

theorem infix_replaceEach {value : Tag → Text} {tags : List Tag} {a t : Text}
    (h : ∀ tag ∈ tags, tag.code ≠ [] ∧ ¬ Text.Meets tag.code a) (hin : a <:+: t) :
    a <:+: replaceEach value tags t := by
  induction tags generalizing t with
  | nil => exact hin
  | cons tag tags ih =>
    obtain ⟨⟨hne, hapart⟩, htail⟩ := List.forall_mem_cons.mp h
    exact ih htail (Text.infix_replace hne _ hapart hin)

end Tag

namespace Stub

/-- A render succeeds if all tags resolve. It leaves an attempt as it is if no tag has a text that
meets it, and in a steady stub it leaves everything as it is but the tags. -/
theorem renderText_attempts (env : Surroundings) (s : Stub) (values : Bindings Text)
    (value : Tag → Text)
    (hresolve : ∀ tag ∈ Tag.scan s.source,
      resolve (Helper.call env) (s.caller values 0) values (Placeholder.ofTag tag) =
        .ok (value tag)) :
    ∃ out, s.renderText env values = .ok out ∧
      (s.Steady value → out = Tag.splice value s.source) ∧
      ∀ attempt, Tag.IsAttempt s.source attempt →
        (∀ tag ∈ Tag.scan s.source, ¬ Text.Meets tag.code attempt) ∨ s.Steady value →
          attempt <:+: out := by
  obtain ⟨tags, hpending, _, hturns⟩ := s.exists_turns
  have hrender : s.renderText env values = .ok (Tag.replaceEach value tags s.source) :=
    substitute_eq_replaceEach hpending fun tag htag => hresolve tag (hturns.mem tag htag)
  have hsplice (hsteady : s.Steady value) :
      Tag.replaceEach value tags s.source = Tag.splice value s.source :=
    Except.ok.inj (hrender.symm.trans (substitute_of_steady hresolve hsteady))
  refine ⟨_, hrender, hsplice, fun attempt hattempt hcase => ?_⟩
  rcases hcase with hapart | hsteady
  · obtain ⟨before, after, hsource, _⟩ := hattempt
    refine Tag.infix_replaceEach (fun tag htag => ?_) ⟨before, after, hsource.symm⟩
    have hmem := hturns.mem tag htag
    obtain ⟨rest, _, hcode, _⟩ := Tag.exists_rest_of_mem_scan hmem
    exact ⟨by simp [hcode], hapart tag hmem⟩
  · rw [hsplice hsteady]
    exact Tag.attempt_infix_splice hattempt value

private def letterTag (c : Char) : Text := ['{', '?', c, '?', '}']

private def unclosed (body : Text) : Text := ['{', '?', 'a', '[', '"'] ++ body ++ ['"']

private def halted (body : Text) : Stub :=
  ofSource (unclosed body ++ '!' :: letterTag 'b') ⟨[], []⟩

/-- A text between the quotes that is the text of no tag stays as it is. -/
theorem renderText_halted :
    (∀ tag ∈ Tag.scan (halted (letterTag 'c')).source,
      resolve (Helper.call .bare) ((halted (letterTag 'c')).caller [(['b'], ['1'])] 0)
        [(['b'], ['1'])] (Placeholder.ofTag tag) = .ok ['1']) ∧
    ∃ out, (halted (letterTag 'c')).renderText .bare [(['b'], ['1'])] = .ok out ∧
      unclosed (letterTag 'c') <:+: out := by
  have hresolve : ∀ tag ∈ Tag.scan (halted (letterTag 'c')).source,
      resolve (Helper.call .bare) ((halted (letterTag 'c')).caller [(['b'], ['1'])] 0)
        [(['b'], ['1'])] (Placeholder.ofTag tag) = .ok ['1'] :=
    List.map_inj_left.mp rfl
  have hattempt : Tag.IsAttempt (halted (letterTag 'c')).source (unclosed (letterTag 'c')) :=
    ⟨[], '!' :: letterTag 'b', rfl, rfl, rfl, by rintro _ ⟨⟩; rfl⟩
  obtain ⟨out, hout, _, hkept⟩ := renderText_attempts .bare _ _ _ hresolve
  exact ⟨hresolve, out, hout, hkept _ hattempt (.inl (by decide))⟩

/-- The tag also stands in the quotes of the abandoned default. -/
theorem exists_attempt_changed : ¬ ∀ (env : Surroundings) (s : Stub) (values : Bindings Text)
    (value : Tag → Text),
      (∀ binding ∈ values, '{' ∉ binding.2 ∧ '}' ∉ binding.2 ∧ '?' ∉ binding.2) →
      (∀ tag ∈ Tag.scan s.source,
        resolve (Helper.call env) (s.caller values 0) values (Placeholder.ofTag tag) =
          .ok (value tag)) →
      (∀ tag ∈ Tag.scan s.source, '{' ∉ value tag ∧ '}' ∉ value tag ∧ '?' ∉ value tag) →
      ∃ out, s.renderText env values = .ok out ∧
        ∀ attempt, Tag.IsAttempt s.source attempt → attempt <:+: out := by
  intro h
  obtain ⟨out, hout, hkept⟩ := h .bare (halted (letterTag 'b')) [(['b'], ['1'])] (fun _ => ['1'])
    (by decide) (List.map_inj_left.mp rfl) (by decide)
  have hpending := pending_of_descending (s := halted (letterTag 'b')) (by decide)
  have hrender : (halted (letterTag 'b')).renderText .bare [(['b'], ['1'])] =
      .ok (unclosed ['1'] ++ ['!', '1']) := by
    rw [renderText, substitute, hpending]
    rfl
  obtain rfl := Except.ok.inj (hrender.symm.trans hout)
  have hattempt : Tag.IsAttempt (halted (letterTag 'b')).source (unclosed (letterTag 'b')) :=
    ⟨[], '!' :: letterTag 'b', rfl, rfl, rfl, by rintro _ ⟨⟩; rfl⟩
  exact absurd (hkept _ hattempt) (by decide)

end Stub

end Scaffold
