import Mathlib.Data.List.Infix
import Scaffold.Proofs.Render.Pending
import Scaffold.Render

/-!
Rendering searches the text for each tag again and again, while the text changes under it. Main
statement: as long as no end of a tag is the beginning of one and no value makes up a new opening,
the search finds the spans of the tags and nothing else (`renderText_eq_splice`).
-/

namespace Scaffold

namespace Text

/-- Some end of the first text, short of all of it, is a beginning of the second. -/
def Overlaps (a b : Text) : Prop :=
  ∃ part, part ≠ [] ∧ part ≠ a ∧ part ≠ b ∧ part <:+ a ∧ part <+: b

instance (a b : Text) : Decidable (Overlaps a b) :=
  decidable_of_iff (∃ part ∈ a.tails, part ≠ [] ∧ part ≠ a ∧ part ≠ b ∧ part <+: b) <| by
    constructor
    · rintro ⟨part, hmem, hne, ha, hb, hpre⟩
      exact ⟨part, hne, ha, hb, (List.mem_tails part a).mp hmem, hpre⟩
    · rintro ⟨part, hne, ha, hb, hsuf, hpre⟩
      exact ⟨part, (List.mem_tails part a).mpr hsuf, hne, ha, hb, hpre⟩

/-- What no occurrence starts in is passed over. -/
theorem replace_pass {pattern : Text} (hne : pattern ≠ []) (value : Text) {a b : Text}
    (h : ∀ m, m ≠ [] → m <:+ a → ¬ pattern <+: m ++ b) :
    replace pattern value (a ++ b) = a ++ replace pattern value b := by
  induction a with
  | nil => rfl
  | cons c a ih =>
    have hhead : ¬ pattern <+: c :: (a ++ b) := h (c :: a) (by simp) (List.suffix_refl _)
    rw [List.cons_append, replace_cons_of_not_head hne value hhead, List.cons_append,
      ih fun m hm hsuf => h m hm (hsuf.trans (List.suffix_cons c a))]

/-- An occurrence that starts behind the first character of a text reaches beyond its end, and so
the text ends with the beginning of the pattern. -/
theorem not_prefix_of_not_overlaps {pattern a m : Text} (b : Text) (hm : m ≠ []) (hma : m ≠ a)
    (hsuf : m <:+ a) (hbytes : bytes a ≤ bytes pattern) (hover : ¬ Overlaps a pattern) :
    ¬ pattern <+: m ++ b := by
  have hshort : bytes m < bytes a := by
    obtain ⟨k, rfl⟩ := hsuf
    have hk : bytes k ≠ 0 := fun h => hma (by rw [bytes_eq_zero h]; rfl)
    rw [bytes_append]
    omega
  intro hpre
  rcases List.prefix_or_prefix_of_prefix hpre (List.prefix_append m b) with h | h
  · obtain ⟨k, rfl⟩ := h
    rw [bytes_append] at hshort
    omega
  · have hmp : m ≠ pattern := by rintro rfl; omega
    exact hover ⟨m, hm, hma, hmp, hsuf, h⟩

end Text

namespace Tag

/-- What stands for a tag while only some of the texts are replaced. -/
def partly (done : List Text) (value : Tag → Text) (tag : Tag) : Text :=
  if done.contains tag.code then value tag else tag.code

theorem partly_of_mem {done : List Text} {tag : Tag} (value : Tag → Text)
    (h : tag.code ∈ done) : partly done value tag = value tag :=
  if_pos (List.contains_iff_mem.mpr h)

theorem partly_of_not_mem {done : List Text} {tag : Tag} (value : Tag → Text)
    (h : tag.code ∉ done) : partly done value tag = tag.code :=
  if_neg (mt List.contains_iff_mem.mp h)

variable {done : List Text} {value : Tag → Text} {pieces : List (Text × Tag)} {last : Text}

/-- A question mark that follows after some tags are replaced follows when all are. -/
private theorem weave_question (hopen : ∀ piece ∈ pieces, ['{', '?'] <+: piece.2.code)
    {r : Text} (h : weave (partly done value) pieces last = '?' :: r) :
    ∃ s, weave value pieces last = '?' :: s := by
  induction pieces with
  | nil => exact ⟨r, h⟩
  | cons piece pieces ih =>
    obtain ⟨gap, tag⟩ := piece
    cases gap with
    | cons c gap =>
      obtain ⟨rfl, _⟩ := List.cons.inj h
      exact ⟨_, rfl⟩
    | nil =>
      simp only [weave, List.nil_append, partly] at h ⊢
      split at h
      · cases hv : value tag with
        | nil =>
          rw [hv] at h
          exact ih (fun p hp => hopen p (List.mem_cons_of_mem _ hp)) h
        | cons c v =>
          rw [hv] at h
          obtain ⟨rfl, _⟩ := List.cons.inj h
          exact ⟨_, rfl⟩
      · obtain ⟨u, hu⟩ := hopen _ (List.mem_cons_self ..)
        rw [← show ['{', '?'] ++ u = tag.code from hu] at h
        exact absurd (List.cons.inj h).1 (by decide)

variable (done pieces) in
/-- Where the text is as it will be in the end, nothing that begins as a tag begins. -/
private theorem not_prefix_of_clean {a m pattern : Text}
    (hopen : ∀ piece ∈ pieces, ['{', '?'] <+: piece.2.code)
    (hclean : ¬ ['{', '?'] <:+: a ++ weave value pieces last)
    (hpattern : ['{', '?'] <+: pattern) (hm : m ≠ []) (hsuf : m <:+ a) :
    ¬ pattern <+: m ++ weave (partly done value) pieces last := by
  intro hpre
  obtain ⟨r, hr⟩ := hpattern.trans hpre
  have hclean' : ¬ ['{', '?'] <:+: m ++ weave value pieces last := by
    obtain ⟨k, rfl⟩ := hsuf
    rw [List.append_assoc] at hclean
    exact fun h => hclean (h.trans (List.suffix_append k _).isInfix)
  cases m with
  | nil => exact hm rfl
  | cons c m =>
    cases m with
    | cons d m =>
      obtain ⟨rfl, hd⟩ := List.cons.inj hr
      obtain ⟨rfl, _⟩ := List.cons.inj hd
      exact hclean' ⟨[], m ++ weave value pieces last, rfl⟩
    | nil =>
      obtain ⟨rfl, hq⟩ := List.cons.inj hr
      obtain ⟨s, hs⟩ := weave_question hopen hq.symm
      rw [hs] at hclean'
      exact hclean' ⟨[], s, rfl⟩

/-- Replacing one more text replaces the tags that have it. -/
theorem replace_weave {pattern out : Text} (hpattern : ['{', '?'] <+: pattern)
    (hopen : ∀ piece ∈ pieces, ['{', '?'] <+: piece.2.code)
    (hout : ∀ piece ∈ pieces, piece.2.code = pattern → value piece.2 = out)
    (hapart : ∀ piece ∈ pieces, piece.2.code ∉ done → piece.2.code ≠ pattern →
      ∀ m, m ≠ [] → m <:+ piece.2.code → ∀ b, ¬ pattern <+: m ++ b)
    (hclean : ¬ ['{', '?'] <:+: weave value pieces last) (hnew : pattern ∉ done) :
    Text.replace pattern out (weave (partly done value) pieces last) =
      weave (partly (pattern :: done) value) pieces last := by
  have hne : pattern ≠ [] := by
    rintro rfl
    exact absurd hpattern (by decide)
  induction pieces with
  | nil =>
    have hend : ¬ ['{', '?'] <:+: last ++ weave value [] [] := by
      rw [weave, List.append_nil]
      exact hclean
    have hpass := Text.replace_pass hne out (a := last) (b := []) fun m hm hsuf =>
      not_prefix_of_clean done [] (fun p hp => absurd hp List.not_mem_nil) hend hpattern hm hsuf
    rw [List.append_nil, Text.replace_nil hne, List.append_nil] at hpass
    exact hpass
  | cons piece pieces ih =>
    obtain ⟨gap, tag⟩ := piece
    have htail {p : Text × Tag} (hp : p ∈ pieces) : p ∈ (gap, tag) :: pieces :=
      List.mem_cons_of_mem _ hp
    have hafter : ¬ ['{', '?'] <:+: value tag ++ weave value pieces last := fun h =>
      hclean (h.trans (List.suffix_append gap _).isInfix)
    have hrest := ih (fun p hp => hopen p (htail hp)) (fun p hp => hout p (htail hp))
      (fun p hp => hapart p (htail hp))
      (fun h => hafter (h.trans (List.suffix_append (value tag) _).isInfix))
    have hgap : Text.replace pattern out
        (gap ++ (partly done value tag ++ weave (partly done value) pieces last)) =
        gap ++ Text.replace pattern out
          (partly done value tag ++ weave (partly done value) pieces last) :=
      Text.replace_pass hne out fun m hm hsuf =>
        not_prefix_of_clean done (([], tag) :: pieces) (fun p hp => by
          rcases List.mem_cons.mp hp with rfl | hp
          · exact hopen (gap, tag) (List.mem_cons_self ..)
          · exact hopen p (htail hp)) hclean hpattern hm hsuf
    rw [weave, weave, hgap]
    congr 1
    by_cases hdone : tag.code ∈ done
    · have hvalue : partly done value tag = value tag := partly_of_mem value hdone
      have hvalue' : partly (pattern :: done) value tag = value tag :=
        partly_of_mem value (List.mem_cons_of_mem _ hdone)
      rw [hvalue, hvalue', ← hrest]
      exact Text.replace_pass hne out fun m hm hsuf =>
        not_prefix_of_clean done pieces (fun p hp => hopen p (htail hp)) hafter hpattern hm hsuf
    · have hcode : partly done value tag = tag.code := partly_of_not_mem value hdone
      by_cases hp : tag.code = pattern
      · have hvalue' : partly (pattern :: done) value tag = out := by
          rw [partly_of_mem value (hp ▸ List.mem_cons_self ..)]
          exact hout _ (List.mem_cons_self ..) hp
        rw [hcode, hvalue', hp, Text.replace_append_self hne, hrest]
      · have hcode' : partly (pattern :: done) value tag = tag.code := by
          refine partly_of_not_mem value fun h => ?_
          rcases List.mem_cons.mp h with h | h
          · exact hp h
          · exact hdone h
        rw [hcode, hcode', ← hrest]
        exact Text.replace_pass hne out fun m hm hsuf =>
          hapart (gap, tag) (List.mem_cons_self ..) hdone hp m hm hsuf _

/-- Within a tag, a text of another tag that is not shorter does not begin. -/
theorem not_prefix_of_apart {source : Text} {a b : Tag} (ha : a ∈ scan source)
    (hb : b ∈ scan source) (hne : a.code ≠ b.code)
    (hbytes : Text.bytes a.code ≤ Text.bytes b.code) (hover : ¬ Text.Overlaps a.code b.code)
    {m : Text} (hm : m ≠ []) (hsuf : m <:+ a.code) (rest : Text) : ¬ b.code <+: m ++ rest := by
  by_cases hma : m = a.code
  · intro hpre
    subst hma
    rcases List.prefix_or_prefix_of_prefix hpre (List.prefix_append _ rest) with h | h
    · exact hne (code_eq_of_begins hb ha h).symm
    · exact hne (code_eq_of_begins ha hb h)
  · exact Text.not_prefix_of_not_overlaps rest hm hma hsuf hbytes hover

end Tag

namespace Stub

variable {call : HelperCall} {c : Caller} {values : Bindings Text} {source last : Text}
  {value : Tag → Text} {pieces : List (Text × Tag)}

/-- Replaces the texts of the placeholders that are left, when those in `done` are. -/
private theorem foldlM_replace (hscan : Tag.scan source = pieces.map Prod.snd)
    (hresolve : ∀ tag ∈ Tag.scan source,
      resolve call c values (Placeholder.ofTag tag) = .ok (value tag))
    (hover : ∀ a ∈ Tag.scan source, ∀ b ∈ Tag.scan source, ¬ Text.Overlaps a.code b.code)
    (hclean : ¬ ['{', '?'] <:+: Tag.weave value pieces last) (ps : List Placeholder)
    (done : List Text) (htags : ∀ p ∈ ps, ∃ tag ∈ Tag.scan source, Placeholder.ofTag tag = p)
    (hall : ∀ tag ∈ Tag.scan source, tag.code ∈ done ∨ ∃ p ∈ ps, p.code = tag.code)
    (hnew : ∀ p ∈ ps, p.code ∉ done) (hnodup : ps.Pairwise fun p q => p.code ≠ q.code)
    (hsorted : ps.Pairwise fun p q => Text.bytes q.code ≤ Text.bytes p.code) :
    ps.foldlM (fun text p => do
      let v ← resolve call c values p
      pure (Text.replace p.code v text)) (Tag.weave (Tag.partly done value) pieces last) =
      .ok (Tag.weave value pieces last) := by
  have hmem {piece : Text × Tag} (hp : piece ∈ pieces) : piece.2 ∈ Tag.scan source := by
    rw [hscan]; exact List.mem_map.mpr ⟨piece, hp, rfl⟩
  have hopen (tag : Tag) (h : tag ∈ Tag.scan source) : ['{', '?'] <+: tag.code := by
    obtain ⟨rest, _, hcode, _⟩ := Tag.exists_rest_of_mem_scan h
    exact ⟨rest, hcode.symm⟩
  induction ps generalizing done with
  | nil =>
    have hdone : ∀ piece ∈ pieces, Tag.partly done value piece.2 = value piece.2 := by
      intro piece hp
      rcases hall piece.2 (hmem hp) with h | ⟨p, h, _⟩
      · exact Tag.partly_of_mem value h
      · cases h
    rw [Tag.weave_congr last hdone]
    rfl
  | cons p ps ih =>
    obtain ⟨hfirst, hnodup'⟩ := List.pairwise_cons.mp hnodup
    obtain ⟨hlong, hsorted'⟩ := List.pairwise_cons.mp hsorted
    obtain ⟨tag, htag, rfl⟩ := htags p (List.mem_cons_self ..)
    have hcode := (Placeholder.ofTag_code tag).1
    have hreplace : Text.replace (Placeholder.ofTag tag).code (value tag)
        (Tag.weave (Tag.partly done value) pieces last) =
        Tag.weave (Tag.partly ((Placeholder.ofTag tag).code :: done) value) pieces last := by
      rw [hcode]
      refine Tag.replace_weave (hopen tag htag) (fun piece hp => hopen _ (hmem hp))
        (fun piece hp hsame => ?_) (fun piece hp hpending hother m hm hsuf b => ?_) hclean
        (hcode ▸ hnew _ (List.mem_cons_self ..))
      · have hvalue := hresolve piece.2 (hmem hp)
        rw [Placeholder.ofTag_eq_of_code_eq (hmem hp) htag hsame, hresolve tag htag] at hvalue
        exact (Except.ok.inj hvalue).symm
      · -- The tag is still to come, and the longer ones have come already.
        have hbytes : Text.bytes piece.2.code ≤ Text.bytes tag.code := by
          rcases hall piece.2 (hmem hp) with h | ⟨q, hq, hqcode⟩
          · exact absurd h hpending
          · rcases List.mem_cons.mp hq with rfl | hq
            · exact absurd (hqcode.symm.trans hcode) hother
            · rw [← hqcode, ← hcode]
              exact hlong q hq
        exact Tag.not_prefix_of_apart (hmem hp) htag hother hbytes (hover _ (hmem hp) _ htag) hm
          hsuf b
    rw [List.foldlM_cons, hresolve tag htag]
    change ps.foldlM _ (Text.replace _ (value tag) _) = _
    rw [hreplace]
    refine ih _ (fun q hq => htags q (List.mem_cons_of_mem _ hq)) (fun other hother => ?_)
      (fun q hq hdone => ?_) hnodup' hsorted'
    · rcases hall other hother with h | ⟨q, hq, hqcode⟩
      · exact .inl (List.mem_cons_of_mem _ h)
      · rcases List.mem_cons.mp hq with rfl | hq
        · exact .inl (hqcode ▸ List.mem_cons_self ..)
        · exact .inr ⟨q, hq, hqcode⟩
    · rcases List.mem_cons.mp hdone with h | h
      · exact hfirst q hq h.symm
      · exact hnew q (List.mem_cons_of_mem _ hq) h

theorem substitute_eq_splice (call : HelperCall) (s : Stub) (values : Bindings Text) (depth : Nat)
    (value : Tag → Text)
    (hresolve : ∀ tag ∈ Tag.scan s.source,
      resolve call (s.caller values depth) values (Placeholder.ofTag tag) = .ok (value tag))
    (hover : ∀ a ∈ Tag.scan s.source, ∀ b ∈ Tag.scan s.source, ¬ Text.Overlaps a.code b.code)
    (hclean : ¬ ['{', '?'] <:+: Tag.splice value s.source) :
    s.substitute call values depth = .ok (Tag.splice value s.source) := by
  obtain ⟨pieces, last, hsource, hscan, hlaid⟩ := Tag.exists_woven s.source
  rw [Tag.splice_woven value hsource hscan hlaid] at hclean ⊢
  have hstart : s.source = Tag.weave (Tag.partly [] value) pieces last := by
    rw [hsource]
    exact Tag.weave_congr last fun _ _ => (Tag.partly_of_not_mem value List.not_mem_nil).symm
  have hcover : ∀ tag ∈ Tag.scan s.source, tag.code ∈ [] ∨ ∃ p ∈ s.pending, p.code = tag.code :=
    fun tag htag => .inr (code_mem_pending htag)
  have hfold := foldlM_replace hscan hresolve hover hclean s.pending [] (fun p => mem_pending)
    hcover (fun _ _ => List.not_mem_nil) s.pending_nodup s.pending_sorted
  rw [← hstart] at hfold
  exact hfold

theorem renderText_eq_splice (env : Surroundings) (s : Stub) (values : Bindings Text)
    (value : Tag → Text)
    (hresolve : ∀ tag ∈ Tag.scan s.source,
      resolve (Helper.call env) (s.caller values 0) values (Placeholder.ofTag tag) =
        .ok (value tag))
    (hover : ∀ a ∈ Tag.scan s.source, ∀ b ∈ Tag.scan s.source, ¬ Text.Overlaps a.code b.code)
    (hclean : ¬ ['{', '?'] <:+: Tag.splice value s.source) :
    s.renderText env values = .ok (Tag.splice value s.source) :=
  s.substitute_eq_splice (Helper.call env) values 0 value hresolve hover hclean

private def nested : Stub :=
  ofSource (['{', '?', 'a', '[', '"', '{', '?', 'b', '?', '}', '"', ']', '?', '}'] ++
    ['{', '?', 'b', '?', '}']) ⟨[], []⟩

private def nestedValues : Bindings Text := [(['a'], ['1']), (['b'], ['2'])]

private def noFiles : Surroundings := ⟨fun _ => .error .missing, ⟨0, 0⟩⟩

/-- The default of the first tag is the whole of the second tag. -/
theorem renderText_nested : nested.renderText noFiles nestedValues = .ok "12".toList :=
  nested.renderText_eq_splice noFiles nestedValues
    (fun tag => if tag.start = 0 then ['1'] else ['2']) (List.map_inj_left.mp rfl) (by decide)
    (by decide)

end Stub

end Scaffold
