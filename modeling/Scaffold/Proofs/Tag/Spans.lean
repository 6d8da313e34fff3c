import Scaffold.Proofs.Tag.Occurrence

/-!
A source as its tags and the gaps between them. Main statements: every source is cut by the spans
of its tags (`exists_woven`), and what is read later changes nothing of what the gaps and tags
before it make up (`Gaps.append`). Putting texts for the spans leaves the gaps as they are
(`splice_woven`). The tags come in the order of their spans, and no two of them overlap
(`scan_starts`, `scan_apart`).
-/

namespace Scaffold

namespace Text

/-- The characters within the first `n` bytes. -/
def takeBytes : Nat → Text → Text
  | _, [] => []
  | n, c :: t => if c.utf8Size ≤ n then c :: takeBytes (n - c.utf8Size) t else []

def dropBytes : Nat → Text → Text
  | _, [] => []
  | n, c :: t => if c.utf8Size ≤ n then dropBytes (n - c.utf8Size) t else c :: t

/-- Puts a text for each of the ascending byte ranges, which are counted from `offset` bytes before
the start of the text. -/
def splice (offset : Nat) : List (Nat × Nat × Text) → Text → Text
  | [], t => t
  | (start, stop, value) :: ranges, t =>
    takeBytes (start - offset) t ++ value ++ splice stop ranges (dropBytes (stop - offset) t)

theorem takeBytes_append (a b : Text) : takeBytes (bytes a) (a ++ b) = a := by
  induction a with
  | nil =>
    cases b with
    | nil => rfl
    | cons c b =>
      have := Char.utf8Size_pos c
      rw [List.nil_append, takeBytes, if_neg (by rw [bytes_nil]; omega)]
  | cons c a ih =>
    rw [List.cons_append, takeBytes, bytes_cons, if_pos (by omega), Nat.add_sub_cancel_left, ih]

theorem dropBytes_append (a b : Text) : dropBytes (bytes a) (a ++ b) = b := by
  induction a with
  | nil =>
    cases b with
    | nil => rfl
    | cons c b =>
      have := Char.utf8Size_pos c
      rw [List.nil_append, dropBytes, if_neg (by rw [bytes_nil]; omega)]
  | cons c a ih =>
    rw [List.cons_append, dropBytes, bytes_cons, if_pos (by omega), Nat.add_sub_cancel_left, ih]

end Text

namespace Tag

/-- The source with `value` in place of each tag. -/
def splice (value : Tag → Text) (source : Text) : Text :=
  Text.splice 0 ((scan source).map fun tag => (tag.start, tag.stop, value tag)) source

/-- Tags, each with the text before it, and the text behind the last one; `value` is what stands
in place of a tag. -/
def weave (value : Tag → Text) : List (Text × Tag) → Text → Text
  | [], last => last
  | (gap, tag) :: pieces, last => gap ++ (value tag ++ weave value pieces last)

/-- The spans of the tags are where the texts put them. -/
def Laid : Nat → List (Text × Tag) → Prop
  | _, [] => True
  | offset, (gap, tag) :: pieces =>
    tag.start = offset + Text.bytes gap ∧ tag.stop = tag.start + Text.bytes tag.code ∧
      Laid tag.stop pieces

theorem weave_concat (value : Tag → Text) (pieces : List (Text × Tag)) (gap : Text) (tag : Tag)
    (last : Text) : weave value (pieces ++ [(gap, tag)]) last =
      weave value pieces (gap ++ (value tag ++ last)) := by
  induction pieces with
  | nil => rfl
  | cons piece pieces ih => simp [weave, ih]

theorem weave_append (value : Tag → Text) (pieces : List (Text × Tag)) (last more : Text) :
    weave value pieces (last ++ more) = weave value pieces last ++ more := by
  induction pieces with
  | nil => rfl
  | cons piece pieces ih => simp [weave, ih]

theorem weave_congr {value other : Tag → Text} {pieces : List (Text × Tag)} (last : Text)
    (h : ∀ piece ∈ pieces, value piece.2 = other piece.2) :
    weave value pieces last = weave other pieces last := by
  induction pieces with
  | nil => rfl
  | cons piece pieces ih =>
    rw [weave, weave, h piece (List.mem_cons_self ..),
      ih fun p hp => h p (List.mem_cons_of_mem _ hp)]

theorem laid_concat {offset : Nat} {pieces : List (Text × Tag)} {gap : Text} {tag : Tag}
    (h : Laid offset pieces)
    (hstart : tag.start = offset + Text.bytes (weave code pieces gap))
    (hstop : tag.stop = tag.start + Text.bytes tag.code) :
    Laid offset (pieces ++ [(gap, tag)]) := by
  induction pieces generalizing offset with
  | nil => exact ⟨hstart, hstop, trivial⟩
  | cons piece pieces ih =>
    obtain ⟨before, first⟩ := piece
    obtain ⟨hfirst, hend, hrest⟩ := h
    refine ⟨hfirst, hend, ih hrest ?_⟩
    rw [hstart, hend, hfirst, weave, Text.bytes_append, Text.bytes_append]
    omega

theorem splice_laid (value : Tag → Text) {offset : Nat} {pieces : List (Text × Tag)}
    (h : Laid offset pieces) (last : Text) :
    Text.splice offset (pieces.map fun piece => (piece.2.start, piece.2.stop, value piece.2))
      (weave code pieces last) = weave value pieces last := by
  induction pieces generalizing offset with
  | nil => rfl
  | cons piece pieces ih =>
    obtain ⟨gap, tag⟩ := piece
    obtain ⟨hstart, hstop, hrest⟩ := h
    have hgap : tag.start - offset = Text.bytes gap := by omega
    have htag : tag.stop - offset = Text.bytes (gap ++ tag.code) := by
      rw [Text.bytes_append]; omega
    rw [List.map_cons, Text.splice, weave, weave, hgap, htag, Text.takeBytes_append,
      ← List.append_assoc gap, Text.dropBytes_append, ih hrest, List.append_assoc]

theorem scan_concat (read : Text) (c : Char) :
    scan (read ++ [c]) = scan read ++ ((scanned read).advance c).2.toList := by
  rw [scan_append]
  simp [Scan.run]

/-- The end of what has been read that may still become part of a tag. -/
def held (s : Scan) : Text := if s.state = .content true then ['{'] else s.code

theorem held_inside {s : Scan} (h : s.state.isInside = true) : held s = s.code := by
  refine if_neg fun hbrace => ?_
  rw [hbrace] at h
  cases h

/-- A part of a source as the tags in it, the gaps before them, the gap behind the last one and what
is held. -/
structure Gaps (read : Text) (pieces : List (Text × Tag)) (gap : Text) : Prop where
  read_eq : read = weave code pieces (gap ++ held (scanned read))
  scan_eq : scan read = pieces.map Prod.snd
  laid : Laid 0 pieces

variable {read gap : Text} {pieces : List (Text × Tag)} {c : Char}

/-- While no tag is completed, the gap takes in what is not held any more. -/
theorem Gaps.longer (h : Gaps read pieces gap) {s : Scan} {more : Text}
    (hnext : (scanned read).advance c = (s, none))
    (hheld : held (scanned read) ++ [c] = more ++ held s) :
    Gaps (read ++ [c]) pieces (gap ++ more) where
  read_eq := by
    rw [scanned_concat, hnext, List.append_assoc, ← hheld, ← List.append_assoc, weave_append,
      ← h.read_eq]
  scan_eq := by
    rw [scan_concat, hnext, h.scan_eq]
    exact List.append_nil _
  laid := h.laid

theorem Gaps.outside (h : Gaps read pieces gap) {n : Nat}
    (hnext : (scanned read).advance c = (⟨.content (c = '{'), n, [], []⟩, none)) :
    ∃ more, Gaps (read ++ [c]) pieces (gap ++ (held (scanned read) ++ more)) := by
  by_cases hc : c = '{'
  · refine ⟨[], h.longer hnext ?_⟩
    simp [held, hc]
  · refine ⟨[c], h.longer hnext ?_⟩
    simp [held, hc]

/-- The last character completes a tag, which is the next piece. -/
theorem Gaps.close {before rest : Text} {q : ScanState} {tokens : List Token}
    (h : Gaps read pieces gap) (hread : read = before ++ '{' :: '?' :: rest)
    (hscanned : scanned read = ⟨q, Text.bytes read, .opening :: tokens, '{' :: '?' :: rest⟩)
    (hq : q.isInside = true) (hstep : q.step c = .close) :
    ∃ tag, Gaps (read ++ [c]) (pieces ++ [(gap, tag)]) [] := by
  have hheld : held (scanned read) = '{' :: '?' :: rest := by
    rw [hscanned]
    exact held_inside hq
  have hgap : weave code pieces gap = before := by
    have hcut := h.read_eq
    rw [hheld, weave_append] at hcut
    exact List.append_cancel_right (hcut.symm.trans hread)
  obtain ⟨n, tag, hnext, hcode, hstart, hstop⟩ : ∃ n tag,
      (scanned read).advance c = (⟨.content false, n, [], []⟩, some tag) ∧
        tag.code = '{' :: '?' :: (rest ++ [c]) ∧ tag.start = Text.bytes before ∧
        tag.stop = tag.start + Text.bytes tag.code := by
    rw [hscanned, hread]
    exact ⟨_, _, Scan.advance_end tokens hstep, rfl, rfl, rfl⟩
  refine ⟨tag, ?_, ?_, laid_concat h.laid ?_ hstop⟩
  · rw [scanned_concat, hnext, weave_concat, weave_append, hgap, hread, hcode]
    simp [held]
  · rw [scan_concat, hnext, h.scan_eq, List.map_append]
    rfl
  · rw [hgap, Nat.zero_add, hstart]

/-- Reading on adds to what the values and the gaps make up. -/
theorem Gaps.concat (h : Gaps read pieces gap) (c : Char) : ∃ pieces' gap',
    Gaps (read ++ [c]) pieces' gap' ∧
      ∀ value, weave value pieces gap <+: weave value pieces' gap' := by
  have hgrow (more : Text) (hmore : Gaps (read ++ [c]) pieces (gap ++ more)) : ∃ pieces' gap',
      Gaps (read ++ [c]) pieces' gap' ∧
        ∀ value, weave value pieces gap <+: weave value pieces' gap' :=
    ⟨pieces, _, hmore, fun value => ⟨more, (weave_append value pieces gap more).symm⟩⟩
  have hsound := sound_scanned read
  generalize hs : scanned read = s at hsound
  cases hsound with
  | outside brace hb =>
    by_cases hopen : brace = true ∧ c = '?'
    · obtain ⟨rfl, rfl⟩ := hopen
      refine hgrow [] (h.longer (by rw [hs, Scan.advance_open rfl]) ?_)
      rw [hs]
      rfl
    · obtain ⟨more, hmore⟩ := h.outside (by rw [hs, Scan.advance_content rfl c hopen])
      exact hgrow _ hmore
  | inside before rest q tokens hread _ hrest =>
    have hq : q.isInside = true := ScanState.follow?_inside rfl hrest
    cases hstep : q.step c with
    | next r token =>
      have hr := (ScanState.step_inside hq hstep).1
      refine hgrow [] (h.longer (by rw [hs, Scan.advance_next hq hstep]) ?_)
      rw [hs, held_inside hq, held_inside hr]
      rfl
    | abandon =>
      obtain ⟨more, hmore⟩ := h.outside (by rw [hs, Scan.advance_abandon hstep])
      exact hgrow _ hmore
    | close =>
      obtain ⟨tag, hclose⟩ := h.close hread hs hq hstep
      refine ⟨_, _, hclose, fun value => ?_⟩
      rw [weave_concat, weave_append]
      exact List.prefix_append _ _

theorem Gaps.append (h : Gaps read pieces gap) (more : Text) : ∃ pieces' gap',
    Gaps (read ++ more) pieces' gap' ∧
      ∀ value, weave value pieces gap <+: weave value pieces' gap' := by
  induction more generalizing read pieces gap with
  | nil =>
    rw [List.append_nil]
    exact ⟨pieces, gap, h, fun value => List.prefix_refl _⟩
  | cons c more ih =>
    obtain ⟨pieces₁, gap₁, h₁, hpre₁⟩ := h.concat c
    obtain ⟨pieces₂, gap₂, h₂, hpre₂⟩ := ih h₁
    rw [List.append_cons]
    exact ⟨pieces₂, gap₂, h₂, fun value => (hpre₁ value).trans (hpre₂ value)⟩

theorem exists_gaps (read : Text) : ∃ pieces gap, Gaps read pieces gap := by
  have hnil : Gaps [] [] [] := ⟨rfl, rfl, trivial⟩
  obtain ⟨pieces, gap, h, _⟩ := hnil.append read
  exact ⟨pieces, gap, h⟩

/-- Every source is cut by its tags. -/
theorem exists_woven (source : Text) : ∃ pieces last,
    source = weave code pieces last ∧ scan source = pieces.map Prod.snd ∧ Laid 0 pieces := by
  obtain ⟨pieces, gap, h⟩ := exists_gaps source
  exact ⟨pieces, _, h.read_eq, h.scan_eq, h.laid⟩

/-- Replacing tags by their spans leaves the gaps as they are. -/
theorem splice_woven (value : Tag → Text) {source last : Text} {pieces : List (Text × Tag)}
    (hsource : source = weave code pieces last) (hscan : scan source = pieces.map Prod.snd)
    (hlaid : Laid 0 pieces) : splice value source = weave value pieces last := by
  rw [splice, hscan, hsource, List.map_map]
  exact splice_laid value hlaid last

private theorem laid_apart {offset : Nat} {pieces : List (Text × Tag)} (h : Laid offset pieces) :
    (∀ tag ∈ pieces.map Prod.snd, offset ≤ tag.start) ∧
      (pieces.map Prod.snd).Pairwise fun a b => a.stop ≤ b.start := by
  induction pieces generalizing offset with
  | nil => exact ⟨nofun, .nil⟩
  | cons piece pieces ih =>
    obtain ⟨gap, tag⟩ := piece
    obtain ⟨hstart, hstop, hrest⟩ := h
    obtain ⟨hlater, hpairwise⟩ := ih hrest
    refine ⟨?_, .cons hlater hpairwise⟩
    intro other hother
    rcases List.mem_cons.mp hother with heq | hother
    · rw [heq]
      change offset ≤ tag.start
      omega
    · have hafter := hlater other hother
      omega

/-- No tag starts before the one in front of it has ended. -/
theorem scan_apart (source : Text) : (scan source).Pairwise fun a b => a.stop ≤ b.start := by
  obtain ⟨pieces, last, _, hscan, hlaid⟩ := exists_woven source
  rw [hscan]
  exact (laid_apart hlaid).2

theorem start_lt_stop {source : Text} {tag : Tag} (h : tag ∈ scan source) :
    tag.start < tag.stop := by
  obtain ⟨before, rest, _, _, _, _, _, rfl⟩ := mem_scan_iff.mp h
  have hpos := Char.utf8Size_pos '{'
  change Text.bytes before < Text.bytes before + Text.bytes ('{' :: '?' :: rest)
  rw [Text.bytes_cons]
  omega

/-- Tags come in the order of their places. -/
theorem scan_starts (source : Text) : (scan source).Pairwise fun a b => a.start < b.start :=
  (scan_apart source).imp_of_mem fun ha _ hab => Nat.lt_of_lt_of_le (start_lt_stop ha) hab

theorem scan_nodup (source : Text) : (scan source).Nodup :=
  (scan_starts source).imp fun h heq => absurd (heq ▸ h) (Nat.lt_irrefl _)

end Tag

end Scaffold
