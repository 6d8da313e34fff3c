import Scaffold.Proofs.Render.Substitution

/-!
Rendering replaces the text of a tag wherever it stands, in the tag or elsewhere. A stub is steady
if each such text, whenever its turn comes, stands in its tags only. Main statements: a steady stub
renders to its source with the values in place of the tags (`substitute_of_steady`), and where
values bring in no brace and tags do not overlap, no other stub does (`substitute_eq_splice_iff`).
-/

namespace Scaffold

namespace Text

/-- The number of places in a text at which the pattern begins, `rest` being what follows. -/
def begins (pattern : Text) : Text → Text → Nat
  | [], _ => 0
  | c :: t, rest =>
    (if pattern.isPrefixOf (c :: (t ++ rest)) then 1 else 0) + begins pattern t rest

/-- How often a pattern occurs, overlapping occurrences included. -/
def occurrences (pattern t : Text) : Nat := begins pattern t []

theorem begins_append (pattern a b rest : Text) :
    begins pattern (a ++ b) rest = begins pattern a (b ++ rest) + begins pattern b rest := by
  induction a with
  | nil => simp [begins]
  | cons c a ih =>
    simp only [List.cons_append, begins, ih, List.append_assoc]
    omega

theorem occurrences_append (pattern a b : Text) :
    occurrences pattern (a ++ b) = begins pattern a b + occurrences pattern b := by
  rw [occurrences, begins_append, List.append_nil, occurrences]

theorem occurrences_cons_of_not_head {pattern t : Text} {c : Char} (h : ¬ pattern <+: c :: t) :
    occurrences pattern (c :: t) = occurrences pattern t := by
  have hp : pattern.isPrefixOf (c :: t) = false := by
    simpa [← List.isPrefixOf_iff_prefix] using h
  simp [occurrences, begins, hp]

theorem begins_eq_zero_iff {pattern a rest : Text} : begins pattern a rest = 0 ↔
    ∀ m, m ≠ [] → m <:+ a → ¬ pattern <+: m ++ rest := by
  induction a with
  | nil =>
    constructor
    · intro _ m hm hsuf
      exact absurd (List.suffix_nil.mp hsuf) hm
    · intro _
      rfl
  | cons c a ih =>
    rw [begins, Nat.add_eq_zero_iff, ih]
    constructor
    · rintro ⟨hhead, htail⟩ m hm hsuf hpre
      rcases List.suffix_cons_iff.mp hsuf with rfl | hsuf
      · have hp : pattern.isPrefixOf (c :: (a ++ rest)) = true :=
          List.isPrefixOf_iff_prefix.mpr hpre
        rw [if_pos hp] at hhead
        cases hhead
      · exact htail m hm hsuf hpre
    · intro h
      have hhead : ¬ pattern <+: c :: (a ++ rest) := h (c :: a) (by simp) (List.suffix_refl _)
      refine ⟨if_neg fun hp => hhead (List.isPrefixOf_iff_prefix.mp hp), fun m hm hsuf => ?_⟩
      exact h m hm (hsuf.trans (List.suffix_cons c a))

theorem begins_self {pattern : Text} (h : pattern ≠ []) (rest : Text) :
    1 ≤ begins pattern pattern rest := by
  have hne : begins pattern pattern rest ≠ 0 := fun hzero =>
    begins_eq_zero_iff.mp hzero pattern h (List.suffix_refl _) (List.prefix_append pattern rest)
  omega

/-- A pattern that does not overlap itself begins once within itself. -/
theorem begins_self_of_not_overlaps {pattern : Text} (h : pattern ≠ [])
    (hover : ¬ Overlaps pattern pattern) (rest : Text) : begins pattern pattern rest = 1 := by
  cases pattern with
  | nil => exact absurd rfl h
  | cons c p =>
    have htail : begins (c :: p) p rest = 0 := by
      refine begins_eq_zero_iff.mpr fun m hm hsuf => ?_
      have hlen := hsuf.length_le
      have hshort : m ≠ c :: p := by
        intro heq
        rw [heq, List.length_cons] at hlen
        omega
      exact not_prefix_of_not_overlaps rest hm hshort (hsuf.trans (List.suffix_cons c p))
        (Nat.le_refl _) hover
    have hhead : (c :: p).isPrefixOf (c :: (p ++ rest)) = true :=
      List.isPrefixOf_iff_prefix.mpr ⟨rest, rfl⟩
    rw [begins, htail, if_pos hhead]

end Text

namespace Tag

variable {done : List Text} {value : Tag → Text} {pieces : List (Text × Tag)} {last : Text}
  {pattern out : Text}

variable (value pieces last) in
/-- A text occurs at least as often as there are tags that have it. -/
theorem countP_le_occurrences (hne : pattern ≠ []) (hnew : pattern ∉ done) :
    pieces.countP (fun piece => piece.2.code = pattern) ≤
      Text.occurrences pattern (weave (partly done value) pieces last) := by
  induction pieces with
  | nil => exact Nat.zero_le _
  | cons piece pieces ih =>
    obtain ⟨gap, tag⟩ := piece
    rw [weave, Text.occurrences_append, Text.occurrences_append, List.countP_cons]
    by_cases htag : tag.code = pattern
    · have hcode : partly done value tag = pattern := by
        rw [partly_of_not_mem value (htag ▸ hnew), htag]
      have hself := Text.begins_self hne (weave (partly done value) pieces last)
      rw [hcode, if_pos (decide_eq_true htag)]
      omega
    · rw [if_neg (by simpa using htag)]
      omega

/-- A text that occurs in its tags only is replaced there only. -/
theorem replace_weave_of_occurrences (hne : pattern ≠ []) (hnew : pattern ∉ done)
    (hout : ∀ piece ∈ pieces, piece.2.code = pattern → value piece.2 = out)
    (hcount : Text.occurrences pattern (weave (partly done value) pieces last) =
      pieces.countP fun piece => piece.2.code = pattern) :
    Text.replace pattern out (weave (partly done value) pieces last) =
      weave (partly (pattern :: done) value) pieces last := by
  have hpass {a b : Text} (h : Text.begins pattern a b = 0) :
      Text.replace pattern out (a ++ b) = a ++ Text.replace pattern out b :=
    Text.replace_pass hne out (Text.begins_eq_zero_iff.mp h)
  induction pieces with
  | nil =>
    have hlast : Text.begins pattern last [] = 0 := hcount
    have hsame := hpass hlast
    rw [List.append_nil, Text.replace_nil hne, List.append_nil] at hsame
    exact hsame
  | cons piece pieces ih =>
    obtain ⟨gap, tag⟩ := piece
    have hle := countP_le_occurrences value pieces last hne hnew
    have htail : ∀ piece ∈ pieces, piece.2.code = pattern → value piece.2 = out :=
      fun p hp => hout p (List.mem_cons_of_mem _ hp)
    rw [weave, Text.occurrences_append, Text.occurrences_append, List.countP_cons] at hcount
    by_cases htag : tag.code = pattern
    · have hcode : partly done value tag = pattern := by
        rw [partly_of_not_mem value (htag ▸ hnew), htag]
      have hvalue : partly (pattern :: done) value tag = out := by
        rw [partly_of_mem value (htag ▸ List.mem_cons_self ..)]
        exact hout _ (List.mem_cons_self ..) htag
      have hself := Text.begins_self hne (weave (partly done value) pieces last)
      rw [hcode, if_pos (decide_eq_true htag)] at hcount
      rw [weave, weave, hcode, hvalue, hpass (by omega), Text.replace_append_self hne,
        ih htail (by omega)]
    · have hsame : partly (pattern :: done) value tag = partly done value tag := by
        have hmem : tag.code ∈ pattern :: done ↔ tag.code ∈ done := by simp [htag]
        by_cases hdone : tag.code ∈ done
        · rw [partly_of_mem value hdone, partly_of_mem value (hmem.mpr hdone)]
        · rw [partly_of_not_mem value hdone, partly_of_not_mem value (mt hmem.mp hdone)]
      rw [if_neg (by simpa using htag)] at hcount
      rw [weave, weave, hsame, hpass (by omega), hpass (by omega), ih htail (by omega)]

/-! ## Steady turns -/

/-- Each tag of the list, whenever its turn comes, has a text that stands in such tags only; `done`
are the texts that are replaced by then. -/
def SteadyFrom (source : Text) (value : Tag → Text) : List Text → List Text → Prop
  | _, [] => True
  | done, code :: codes =>
    Text.occurrences code (splice (partly done value) source) =
        (scan source).countP (fun tag => tag.code = code) ∧
      SteadyFrom source value (code :: done) codes

instance decidableSteadyFrom (source : Text) (value : Tag → Text) :
    (done codes : List Text) → Decidable (SteadyFrom source value done codes)
  | _, [] => inferInstanceAs (Decidable True)
  | done, code :: codes =>
    have := decidableSteadyFrom source value (code :: done) codes
    inferInstanceAs (Decidable (_ ∧ _))

/-- Replaces the texts of the tags, one after the other. -/
def replaceEach (value : Tag → Text) : List Tag → Text → Text
  | [], t => t
  | tag :: tags, t => replaceEach value tags (Text.replace tag.code (value tag) t)

/-- The tags whose turn is still to come when the texts `done` are replaced: one for each text that
is left, longer ones first. -/
structure Turns (source : Text) (done : List Text) (tags : List Tag) : Prop where
  mem : ∀ tag ∈ tags, tag ∈ scan source
  fresh : ∀ tag ∈ tags, tag.code ∉ done
  covers : ∀ tag ∈ scan source, tag.code ∈ done ∨ ∃ t ∈ tags, t.code = tag.code
  distinct : tags.Pairwise fun a b => a.code ≠ b.code
  descending : tags.Pairwise fun a b => Text.bytes b.code ≤ Text.bytes a.code

variable {source : Text} {tag : Tag} {tags : List Tag}

theorem Turns.tail (h : Turns source done (tag :: tags)) :
    Turns source (tag.code :: done) tags where
  mem := fun t ht => h.mem t (List.mem_cons_of_mem _ ht)
  fresh := by
    intro t ht hdone
    rcases List.mem_cons.mp hdone with heq | hdone
    · exact (List.pairwise_cons.mp h.distinct).1 t ht heq.symm
    · exact h.fresh t (List.mem_cons_of_mem _ ht) hdone
  covers := by
    intro t ht
    rcases h.covers t ht with hdone | ⟨u, hu, hcode⟩
    · exact .inl (List.mem_cons_of_mem _ hdone)
    · rcases List.mem_cons.mp hu with rfl | hu
      · exact .inl (hcode ▸ List.mem_cons_self ..)
      · exact .inr ⟨u, hu, hcode⟩
  distinct := (List.pairwise_cons.mp h.distinct).2
  descending := (List.pairwise_cons.mp h.descending).2

/-- A text that is left is not longer than the one whose turn it is. -/
theorem Turns.bytes_le {other : Tag} (h : Turns source done (tag :: tags))
    (hother : other ∈ scan source) (hleft : other.code ∉ done) :
    Text.bytes other.code ≤ Text.bytes tag.code := by
  rcases h.covers other hother with hdone | ⟨u, hu, hcode⟩
  · exact absurd hdone hleft
  · rw [← hcode]
    rcases List.mem_cons.mp hu with rfl | hu
    · exact Nat.le_refl _
    · exact (List.pairwise_cons.mp h.descending).1 u hu

theorem splice_partly_nil (value : Tag → Text) (source : Text) :
    splice (partly [] value) source = source := by
  obtain ⟨pieces, last, hsource, hscan, hlaid⟩ := exists_woven source
  rw [splice_woven _ hsource hscan hlaid]
  have hcode := weave_congr last fun piece (_ : piece ∈ pieces) =>
    partly_of_not_mem value (List.not_mem_nil (a := piece.2.code))
  rw [hcode, ← hsource]

theorem splice_partly_all (hall : ∀ tag ∈ scan source, tag.code ∈ done) :
    splice (partly done value) source = splice value source := by
  obtain ⟨pieces, last, hsource, hscan, hlaid⟩ := exists_woven source
  rw [splice_woven _ hsource hscan hlaid, splice_woven _ hsource hscan hlaid]
  refine weave_congr last fun piece hp => partly_of_mem value (hall _ ?_)
  exact hscan ▸ List.mem_map_of_mem hp

/-- One turn, if the text occurs in its tags only. -/
theorem replace_splice (htag : tag ∈ scan source) (hnew : tag.code ∉ done)
    (hsame : ∀ other ∈ scan source, other.code = tag.code → value other = value tag)
    (hcount : Text.occurrences tag.code (splice (partly done value) source) =
      (scan source).countP fun other => other.code = tag.code) :
    Text.replace tag.code (value tag) (splice (partly done value) source) =
      splice (partly (tag.code :: done) value) source := by
  obtain ⟨pieces, last, hsource, hscan, hlaid⟩ := exists_woven source
  obtain ⟨rest, _, hcode, _⟩ := exists_rest_of_mem_scan htag
  have hne : tag.code ≠ [] := by simp [hcode]
  rw [splice_woven _ hsource hscan hlaid] at hcount ⊢
  rw [splice_woven _ hsource hscan hlaid]
  refine replace_weave_of_occurrences hne hnew (fun piece hp heq => ?_) ?_
  · exact hsame piece.2 (hscan ▸ List.mem_map_of_mem hp) heq
  · rw [hcount, hscan, List.countP_map]
    rfl

theorem replaceEach_of_steadyFrom (hturns : Turns source done tags)
    (hsame : ∀ a ∈ scan source, ∀ b ∈ scan source, a.code = b.code → value a = value b)
    (hsteady : SteadyFrom source value done (tags.map code)) :
    replaceEach value tags (splice (partly done value) source) = splice value source := by
  induction tags generalizing done with
  | nil =>
    refine splice_partly_all fun tag htag => ?_
    rcases hturns.covers tag htag with hdone | ⟨_, hnil, _⟩
    · exact hdone
    · cases hnil
  | cons tag tags ih =>
    obtain ⟨hcount, hrest⟩ := hsteady
    have htag := hturns.mem tag (List.mem_cons_self ..)
    have hstep := replace_splice htag (hturns.fresh tag (List.mem_cons_self ..))
      (fun other hother => hsame other hother tag htag) hcount
    rw [replaceEach, hstep]
    exact ih hturns.tail hrest

/-! ## Braces outside of tags -/

/-- The text is made of the tags in their order and of other characters, `free` of which are
opening braces. -/
private inductive Cut : List Tag → Nat → Text → Prop
  | nil : Cut [] 0 []
  | other (c : Char) {tags : List Tag} {free : Nat} {t : Text} :
      Cut tags free t → Cut tags ((if c = '{' then 1 else 0) + free) (c :: t)
  | tag (tag : Tag) {tags : List Tag} {free : Nat} {t : Text} :
      Cut tags free t → Cut (tag :: tags) free (tag.code ++ t)

variable {free : Nat} {t : Text}

private theorem Cut.prepend (h : Cut tags free t) (u : Text) :
    Cut tags (u.count '{' + free) (u ++ t) := by
  induction u with
  | nil =>
    rw [List.count_nil, Nat.zero_add]
    exact h
  | cons c u ih =>
    have hcut := Cut.other c ih
    have hcount : (if c = '{' then 1 else 0) + (u.count '{' + free) =
        (c :: u).count '{' + free := by
      rw [List.count_cons]
      simp only [beq_iff_eq]
      omega
    rw [hcount] at hcut
    exact hcut

/-- A text without a brace leaves their number as it is. -/
private theorem Cut.prepend_free (h : Cut tags free t) {u : Text} (hu : '{' ∉ u) :
    Cut tags free (u ++ t) := by
  have hcut := h.prepend u
  rw [List.count_eq_zero.mpr hu, Nat.zero_add] at hcut
  exact hcut

private theorem Cut.count_eq (h : Cut [] free t) : t.count '{' = free := by
  generalize hnil : ([] : List Tag) = tags at h
  induction h with
  | nil => rfl
  | other c _ ih =>
    rw [List.count_cons, ih hnil]
    simp only [beq_iff_eq]
    omega
  | tag => cases hnil

/-- At every turn the same braces are outside of the tags that are left. -/
private theorem exists_cut (last : Text) (hbrace : ∀ piece ∈ pieces, '{' ∉ value piece.2) :
    ∃ free, ∀ done, Cut ((pieces.map Prod.snd).filter fun tag => tag.code ∉ done) free
      (weave (partly done value) pieces last) := by
  induction pieces with
  | nil =>
    refine ⟨last.count '{', fun done => ?_⟩
    have hcut := Cut.nil.prepend last
    rw [List.append_nil] at hcut
    exact hcut
  | cons piece pieces ih =>
    obtain ⟨gap, tag⟩ := piece
    obtain ⟨free, hcut⟩ := ih fun p hp => hbrace p (List.mem_cons_of_mem _ hp)
    refine ⟨gap.count '{' + free, fun done => ?_⟩
    rw [weave, List.map_cons, List.filter_cons]
    refine Cut.prepend ?_ gap
    by_cases hdone : tag.code ∈ done
    · rw [if_neg (by simpa using hdone), partly_of_mem value hdone]
      exact (hcut done).prepend_free (hbrace _ (List.mem_cons_self ..))
    · rw [if_pos (by simpa using hdone), partly_of_not_mem value hdone]
      exact .tag tag (hcut done)

/-- What is left behind the rest of an occurrence: an occurrence that reaches into a tag takes all
of it. -/
private theorem Cut.drop (h : Cut tags free t) {u rest : Text} (ht : t = u ++ rest)
    (hsuf : u <:+ pattern) (hshort : u.length < pattern.length)
    (hover : ∀ tag ∈ tags, ¬ Text.Overlaps pattern tag.code) :
    ∃ tags' free', Cut tags' free' rest ∧ tags' ⊆ tags ∧ free' ≤ free := by
  induction h generalizing u with
  | nil =>
    obtain ⟨_, rfl⟩ := List.append_eq_nil_iff.mp ht.symm
    exact ⟨[], 0, .nil, List.Subset.refl _, Nat.le_refl _⟩
  | @other c tags free t h ih =>
    cases u with
    | nil =>
      obtain rfl : c :: t = rest := ht
      exact ⟨_, _, .other c h, List.Subset.refl _, Nat.le_refl _⟩
    | cons x u =>
      obtain ⟨rfl, ht'⟩ := List.cons.inj ht
      rw [List.length_cons] at hshort
      obtain ⟨tags', free', hcut, hsub, hle⟩ :=
        ih ht' ((List.suffix_cons c u).trans hsuf) (by omega) hover
      exact ⟨tags', free', hcut, hsub, by omega⟩
  | @tag tag tags free t h ih =>
    rcases List.append_eq_append_iff.mp ht with ⟨v, rfl, hv⟩ | ⟨v, hcode, hrest⟩
    · rw [List.length_append] at hshort
      obtain ⟨tags', free', hcut, hsub, hle⟩ := ih hv ((List.suffix_append _ v).trans hsuf)
        (by omega) fun a ha => hover a (List.mem_cons_of_mem _ ha)
      exact ⟨tags', free', hcut, List.subset_cons_of_subset tag hsub, hle⟩
    · by_cases hnil : u = []
      · subst hnil
        rw [hrest, ← show tag.code = v from hcode]
        exact ⟨_, _, .tag tag h, List.Subset.refl _, Nat.le_refl _⟩
      · by_cases hwhole : u = tag.code
        · have hv : v = [] := by
            rw [hwhole] at hcode
            simpa using hcode
          rw [hrest, hv]
          exact ⟨_, _, h, List.subset_cons_self _ _, Nat.le_refl _⟩
        · have hpart : u ≠ pattern := fun heq => absurd hshort (heq ▸ Nat.lt_irrefl _)
          refine absurd ⟨u, hnil, hpart, hwhole, hsuf, ?_⟩ (hover tag (List.mem_cons_self ..))
          exact ⟨v, hcode.symm⟩

/-- One turn on a text with the tags that are left: if it takes something else than tags, then with
a brace that was outside of them. -/
private theorem Cut.replace {first : Tag} (hfirst : first ∈ scan source)
    (hover : ∀ a ∈ scan source, ∀ b ∈ scan source, ¬ Text.Overlaps a.code b.code)
    (hout : '{' ∉ out) (h : Cut tags free t) (hmem : ∀ tag ∈ tags, tag ∈ scan source)
    (hlong : ∀ tag ∈ tags, Text.bytes tag.code ≤ Text.bytes first.code) :
    ∃ tags' free', Cut tags' free' (Text.replace first.code out t) ∧ tags' ⊆ tags ∧
      (∀ tag ∈ tags', tag.code ≠ first.code) ∧ free' ≤ free ∧
      (free' = free →
        Text.occurrences first.code t = tags.countP fun tag => tag.code = first.code) := by
  obtain ⟨u, _, hcode, _⟩ := exists_rest_of_mem_scan hfirst
  have hne : first.code ≠ [] := by simp [hcode]
  induction hn : t.length using Nat.strong_induction_on generalizing tags free t with
  | _ n ih =>
  subst hn
  cases h with
  | nil =>
    refine ⟨[], 0, ?_, List.Subset.refl _, nofun, Nat.le_refl _, fun _ => rfl⟩
    rw [Text.replace_nil hne]
    exact .nil
  | @other c _ free t h =>
    by_cases hhead : first.code <+: c :: t
    · obtain ⟨rest, ht⟩ := hhead
      rw [hcode] at ht
      obtain ⟨rfl, htail⟩ := List.cons.inj ht
      have ht' : t = ('?' :: u) ++ rest := htail.symm
      have hsuf : '?' :: u <:+ first.code := hcode ▸ List.suffix_cons _ _
      obtain ⟨tags₁, free₁, hcut₁, hsub₁, hle₁⟩ := h.drop ht' hsuf (by simp [hcode])
        fun tag htag => hover first hfirst tag (hmem tag htag)
      have hshort : rest.length < ('{' :: t).length := by
        rw [ht', List.length_cons, List.length_append]
        omega
      obtain ⟨tags₂, free₂, hcut₂, hsub₂, hdone, hle₂, _⟩ := ih _ hshort hcut₁
        (fun tag htag => hmem tag (hsub₁ htag)) (fun tag htag => hlong tag (hsub₁ htag)) rfl
      refine ⟨tags₂, free₂, ?_, fun tag htag => hsub₁ (hsub₂ htag), hdone, by omega, fun heq => ?_⟩
      · rw [← ht, ← hcode, Text.replace_append_self hne]
        exact hcut₂.prepend_free hout
      · rw [if_pos rfl] at heq
        omega
    · obtain ⟨tags', free', hcut, hsub, hdone, hle, hcount⟩ :=
        ih _ (Nat.lt_succ_self _) h hmem hlong rfl
      refine ⟨tags', _, ?_, hsub, hdone, Nat.add_le_add_left hle _, fun heq => ?_⟩
      · rw [Text.replace_cons_of_not_head hne out hhead]
        exact .other c hcut
      · rw [Text.occurrences_cons_of_not_head hhead]
        exact hcount (Nat.add_left_cancel heq)
  | @tag tag tags _ t h =>
    have htag := hmem tag (List.mem_cons_self ..)
    obtain ⟨v, _, hv, _⟩ := exists_rest_of_mem_scan htag
    have hshort : t.length < (tag.code ++ t).length := by
      rw [hv, List.length_append, List.length_cons]
      omega
    obtain ⟨tags', free', hcut, hsub, hdone, hle, hcount⟩ := ih _ hshort h
      (fun a ha => hmem a (List.mem_cons_of_mem _ ha))
      (fun a ha => hlong a (List.mem_cons_of_mem _ ha)) rfl
    by_cases hsame : tag.code = first.code
    · refine ⟨tags', free', ?_, List.subset_cons_of_subset tag hsub, hdone, hle, fun heq => ?_⟩
      · rw [hsame, Text.replace_append_self hne]
        exact hcut.prepend_free hout
      · have hself := Text.begins_self_of_not_overlaps hne (hover first hfirst first hfirst) t
        rw [hsame, Text.occurrences_append, hself, hcount heq, List.countP_cons,
          if_pos (decide_eq_true hsame), Nat.add_comm]
    · have hpass : ∀ m, m ≠ [] → m <:+ tag.code → ¬ first.code <+: m ++ t := fun m hm hsuf =>
        not_prefix_of_apart htag hfirst hsame (hlong tag (List.mem_cons_self ..))
          (hover tag htag first hfirst) hm hsuf t
      refine ⟨tag :: tags', free', ?_, List.cons_subset_cons tag hsub, ?_, hle, fun heq => ?_⟩
      · rw [Text.replace_pass hne out hpass]
        exact .tag tag hcut
      · intro a ha
        rcases List.mem_cons.mp ha with rfl | ha
        · exact hsame
        · exact hdone a ha
      · rw [Text.occurrences_append, Text.begins_eq_zero_iff.mpr hpass, hcount heq,
          List.countP_cons, if_neg (by simpa using hsame), Nat.zero_add, Nat.add_zero]

/-- A turn as a step: what it makes of the tags that are left and of the braces outside of them. -/
private theorem Turns.cut_replace (hturns : Turns source done (tag :: tags))
    (hover : ∀ a ∈ scan source, ∀ b ∈ scan source, ¬ Text.Overlaps a.code b.code)
    (hbrace : ∀ tag ∈ scan source, '{' ∉ value tag) {left : List Tag} (h : Cut left free t)
    (hleft : ∀ a ∈ left, a ∈ scan source ∧ a.code ∉ done) :
    ∃ left' free', Cut left' free' (Text.replace tag.code (value tag) t) ∧
      (∀ a ∈ left', a ∈ scan source ∧ a.code ∉ tag.code :: done) ∧ free' ≤ free ∧
      (free' = free →
        Text.occurrences tag.code t = left.countP fun a => a.code = tag.code) := by
  have htag := hturns.mem tag (List.mem_cons_self ..)
  obtain ⟨left', free', hcut, hsub, hgone, hle, hcount⟩ := h.replace htag hover (hbrace tag htag)
    (fun a ha => (hleft a ha).1) fun a ha => hturns.bytes_le (hleft a ha).1 (hleft a ha).2
  refine ⟨left', free', hcut, fun a ha => ?_, hle, hcount⟩
  obtain ⟨hmem, hnew⟩ := hleft a (hsub ha)
  exact ⟨hmem, fun hdone => (List.mem_cons.mp hdone).elim (hgone a ha) hnew⟩

/-- The turns to come leave no more braces than are outside of the tags. -/
private theorem Turns.count_le (hturns : Turns source done tags)
    (hover : ∀ a ∈ scan source, ∀ b ∈ scan source, ¬ Text.Overlaps a.code b.code)
    (hbrace : ∀ tag ∈ scan source, '{' ∉ value tag) {left : List Tag} (h : Cut left free t)
    (hleft : ∀ a ∈ left, a ∈ scan source ∧ a.code ∉ done) :
    (replaceEach value tags t).count '{' ≤ free := by
  induction tags generalizing done left free t with
  | nil =>
    have hnil : left = [] := by
      refine List.eq_nil_iff_forall_not_mem.mpr fun tag htag => ?_
      obtain ⟨hmem, hnew⟩ := hleft tag htag
      rcases hturns.covers tag hmem with hdone | ⟨_, hnil, _⟩
      · exact hnew hdone
      · cases hnil
    subst hnil
    exact Nat.le_of_eq h.count_eq
  | cons tag tags ih =>
    obtain ⟨left', free', hcut, hleft', hle, _⟩ := hturns.cut_replace hover hbrace h hleft
    exact (ih hturns.tail hcut hleft').trans hle

private theorem exists_cut_splice (source : Text) (hbrace : ∀ tag ∈ scan source, '{' ∉ value tag) :
    ∃ free, ∀ done, Cut ((scan source).filter fun tag => tag.code ∉ done) free
      (splice (partly done value) source) := by
  obtain ⟨pieces, last, hsource, hscan, hlaid⟩ := exists_woven source
  obtain ⟨free, hcut⟩ := exists_cut last fun piece hp =>
    hbrace piece.2 (hscan ▸ List.mem_map_of_mem hp)
  refine ⟨free, fun done => ?_⟩
  rw [splice_woven _ hsource hscan hlaid, hscan]
  exact hcut done

/-- Where each tag has given way to its value and all else is as it was, each turn was steady: any
other occurrence would have taken a brace that is missing in the end. -/
theorem steadyFrom_of_replaceEach (hturns : Turns source done tags)
    (hsame : ∀ a ∈ scan source, ∀ b ∈ scan source, a.code = b.code → value a = value b)
    (hover : ∀ a ∈ scan source, ∀ b ∈ scan source, ¬ Text.Overlaps a.code b.code)
    (hbrace : ∀ tag ∈ scan source, '{' ∉ value tag)
    (h : replaceEach value tags (splice (partly done value) source) = splice value source) :
    SteadyFrom source value done (tags.map code) := by
  obtain ⟨free, hcut⟩ := exists_cut_splice source hbrace
  have hend : (splice value source).count '{' = free := by
    have hall : ∀ tag ∈ scan source, tag.code ∈ (scan source).map code :=
      fun tag htag => List.mem_map_of_mem htag
    have hlast := hcut ((scan source).map code)
    rw [splice_partly_all hall, List.filter_eq_nil_iff.mpr fun tag htag => by
      simpa using ⟨tag, htag, rfl⟩] at hlast
    exact hlast.count_eq
  induction tags generalizing done with
  | nil => trivial
  | cons tag tags ih =>
    have htag := hturns.mem tag (List.mem_cons_self ..)
    have hnew := hturns.fresh tag (List.mem_cons_self ..)
    obtain ⟨left, free', hnext, hleft, hle, hcount⟩ := hturns.cut_replace hover hbrace (hcut done)
      fun a ha => by simpa using ha
    have hge : free ≤ free' := by
      rw [← hend, ← h]
      exact hturns.tail.count_le hover hbrace hnext hleft
    have hsteady : Text.occurrences tag.code (splice (partly done value) source) =
        (scan source).countP fun other => other.code = tag.code := by
      rw [hcount (Nat.le_antisymm hle hge), List.countP_filter]
      refine List.countP_congr fun a _ => ?_
      simp only [Bool.and_eq_true, decide_eq_true_eq]
      constructor
      · intro ha
        exact ha.1
      · intro ha
        exact ⟨ha, ha ▸ hnew⟩
    have hstep := replace_splice htag hnew (fun other hother => hsame other hother tag htag)
      hsteady
    refine ⟨hsteady, ih hturns.tail ?_⟩
    rw [← hstep]
    exact h

end Tag

namespace Stub

/-- Whenever the turn of a text comes, it stands in the tags that have it and nowhere else;
`value` is what tags give way to. -/
def Steady (s : Stub) (value : Tag → Text) : Prop :=
  Tag.SteadyFrom s.source value [] (s.pending.map (·.code))

instance (s : Stub) (value : Tag → Text) : Decidable (s.Steady value) :=
  Tag.decidableSteadyFrom s.source value [] _

private theorem exists_tags {source : Text} (ps : List Placeholder)
    (h : ∀ p ∈ ps, ∃ tag ∈ Tag.scan source, Placeholder.ofTag tag = p) :
    ∃ tags : List Tag, tags.map Placeholder.ofTag = ps ∧ ∀ tag ∈ tags, tag ∈ Tag.scan source := by
  induction ps with
  | nil => exact ⟨[], rfl, nofun⟩
  | cons p ps ih =>
    obtain ⟨tag, htag, rfl⟩ := h p (List.mem_cons_self ..)
    obtain ⟨tags, rfl, hmem⟩ := ih fun q hq => h q (List.mem_cons_of_mem _ hq)
    exact ⟨tag :: tags, rfl, List.forall_mem_cons.mpr ⟨htag, hmem⟩⟩

theorem exists_turns (s : Stub) : ∃ tags, tags.map Placeholder.ofTag = s.pending ∧
    s.pending.map (·.code) = tags.map Tag.code ∧ Tag.Turns s.source [] tags := by
  obtain ⟨tags, hpending, hmem⟩ := exists_tags s.pending fun _ => mem_pending
  have hnodup := s.pending_nodup
  have hsorted := s.pending_sorted
  simp only [← hpending, List.pairwise_map, Placeholder.ofTag_code] at hnodup hsorted
  have hcodes : s.pending.map (·.code) = tags.map Tag.code := by
    rw [← hpending, List.map_map]
    exact List.map_congr_left fun tag _ => (Placeholder.ofTag_code tag).1
  refine ⟨tags, hpending, hcodes, hmem, fun _ _ => List.not_mem_nil, fun tag htag => ?_, hnodup,
    hsorted⟩
  obtain ⟨p, hp, hcode⟩ := code_mem_pending htag
  rw [← hpending] at hp
  obtain ⟨first, hfirst, rfl⟩ := List.mem_map.mp hp
  exact .inr ⟨first, hfirst, (Placeholder.ofTag_code first).1 ▸ hcode⟩

variable {call : HelperCall} {s : Stub} {values : Bindings Text} {depth : Nat}
  {value : Tag → Text}

theorem substitute_eq_replaceEach {tags : List Tag}
    (hpending : tags.map Placeholder.ofTag = s.pending)
    (hresolve : ∀ tag ∈ tags,
      resolve call (s.caller values depth) values (Placeholder.ofTag tag) = .ok (value tag)) :
    s.substitute call values depth = .ok (Tag.replaceEach value tags s.source) := by
  rw [substitute, ← hpending]
  clear hpending
  generalize s.source = t
  induction tags generalizing t with
  | nil => rfl
  | cons tag tags ih =>
    rw [List.map_cons, List.foldlM_cons, hresolve tag (List.mem_cons_self ..),
      (Placeholder.ofTag_code tag).1]
    exact ih (fun other hother => hresolve other (List.mem_cons_of_mem _ hother)) _

/-- Tags of one text have one value. -/
private theorem value_eq_of_code_eq (hresolve : ∀ tag ∈ Tag.scan s.source,
      resolve call (s.caller values depth) values (Placeholder.ofTag tag) = .ok (value tag)) :
    ∀ a ∈ Tag.scan s.source, ∀ b ∈ Tag.scan s.source, a.code = b.code → value a = value b := by
  intro a ha b hb hcode
  have hvalue := hresolve a ha
  rw [Placeholder.ofTag_eq_of_code_eq ha hb hcode, hresolve b hb] at hvalue
  exact (Except.ok.inj hvalue).symm

/-- A steady stub renders to its source with the values in place of the tags. -/
theorem substitute_of_steady (hresolve : ∀ tag ∈ Tag.scan s.source,
      resolve call (s.caller values depth) values (Placeholder.ofTag tag) = .ok (value tag))
    (hsteady : s.Steady value) :
    s.substitute call values depth = .ok (Tag.splice value s.source) := by
  obtain ⟨tags, hpending, hcodes, hturns⟩ := s.exists_turns
  rw [Steady, hcodes] at hsteady
  have heach := Tag.replaceEach_of_steadyFrom hturns (value_eq_of_code_eq hresolve) hsteady
  rw [Tag.splice_partly_nil] at heach
  rw [substitute_eq_replaceEach hpending fun tag htag => hresolve tag (hturns.mem tag htag), heach]

/-- Where the tags do not overlap and no value brings in a brace, being steady is all it takes for
the tags, and nothing else, to give way to their values. -/
theorem substitute_eq_splice_iff (hresolve : ∀ tag ∈ Tag.scan s.source,
      resolve call (s.caller values depth) values (Placeholder.ofTag tag) = .ok (value tag))
    (hover : ∀ a ∈ Tag.scan s.source, ∀ b ∈ Tag.scan s.source, ¬ Text.Overlaps a.code b.code)
    (hbrace : ∀ tag ∈ Tag.scan s.source, '{' ∉ value tag) :
    s.substitute call values depth = .ok (Tag.splice value s.source) ↔ s.Steady value := by
  refine ⟨fun hrender => ?_, substitute_of_steady hresolve⟩
  obtain ⟨tags, hpending, hcodes, hturns⟩ := s.exists_turns
  rw [substitute_eq_replaceEach hpending fun tag htag => hresolve tag (hturns.mem tag htag)]
    at hrender
  rw [Steady, hcodes]
  refine Tag.steadyFrom_of_replaceEach hturns (value_eq_of_code_eq hresolve) hover hbrace ?_
  rw [Tag.splice_partly_nil]
  exact Except.ok.inj hrender

end Stub

end Scaffold
