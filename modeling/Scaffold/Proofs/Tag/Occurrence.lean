import Mathlib.Data.List.Induction
import Scaffold.Proofs.Tag.Reading

/-!
Where the tags of a source are. Main statements: a text is read as a tag exactly where the scanner
is not within a literal (`mem_scan_iff`), and so a tag is found again after whatever was abandoned
before it (`found_iff_not_quoted`).
-/

namespace Scaffold

namespace Tag

/-- The scan after a part of a source. -/
def scanned (read : Text) : Scan := (Scan.start (.content false)).after read

/-- The text is one tag from its first character to its last. -/
def IsWhole (code : Text) (tag : Tag) : Prop :=
  scan code = [tag] ∧ tag.start = 0 ∧ tag.stop = Text.bytes code

theorem scanned_concat (read : Text) (c : Char) :
    scanned (read ++ [c]) = ((scanned read).advance c).1 := by
  rw [scanned, Scan.after_append]; rfl

theorem scan_append (t u : Text) : scan (t ++ u) = scan t ++ (scanned t).run u :=
  Scan.run_append _ t u

end Tag

/-- What holds of a scan that has read a text: outside of tags nothing is kept, and inside of a tag
the text since its `{?`, which was not within a literal. -/
inductive Scan.Sound (read : Text) : Scan → Prop
  | outside (brace : Bool) : (brace = true → ∃ before, read = before ++ ['{'] ∧
      (Tag.scanned before).state.isQuoted = false) →
      Sound read ⟨.content brace, Text.bytes read, [], []⟩
  | inside (before rest : Text) (q : ScanState) (tokens : List Token) :
      read = before ++ '{' :: '?' :: rest → (Tag.scanned before).state.isQuoted = false →
      ScanState.opened.follow? rest = some (q, tokens) →
      Sound read ⟨q, Text.bytes read, .opening :: tokens, '{' :: '?' :: rest⟩

/-- The tag that a character completes stands where its opening was read. -/
theorem Scan.advance_end {before rest : Text} {q : ScanState} {c : Char} (tokens : List Token)
    (h : q.step c = .close) :
    (⟨q, Text.bytes (before ++ '{' :: '?' :: rest), .opening :: tokens, '{' :: '?' :: rest⟩ :
      Scan).advance c =
      (⟨.content false, Text.bytes (before ++ '{' :: '?' :: rest ++ [c]), [], []⟩,
        some ⟨.opening :: (tokens ++ [.closing]), '{' :: '?' :: (rest ++ [c]), Text.bytes before,
          Text.bytes before + Text.bytes ('{' :: '?' :: (rest ++ [c]))⟩) := by
  have hstop : Text.bytes (before ++ '{' :: '?' :: rest) + c.utf8Size =
      Text.bytes before + Text.bytes ('{' :: '?' :: (rest ++ [c])) := by
    simp [Text.bytes_append, Text.bytes_cons, Text.bytes_nil, Nat.add_assoc]
  have hoffset : Text.bytes (before ++ '{' :: '?' :: rest ++ [c]) =
      Text.bytes before + Text.bytes ('{' :: '?' :: (rest ++ [c])) := by
    rw [← hstop, Text.bytes_append, Text.bytes_cons, Text.bytes_nil, Nat.add_zero]
  have hstart : Text.bytes before + Text.bytes ('{' :: '?' :: (rest ++ [c])) -
      Text.bytes ('{' :: '?' :: rest ++ [c]) = Text.bytes before := Nat.add_sub_cancel ..
  rw [Scan.advance_close h, hoffset]
  simp only [hstop, hstart]
  rfl

namespace Tag

private theorem sound_concat {read : Text} (h : (scanned read).Sound read) (c : Char) :
    (scanned (read ++ [c])).Sound (read ++ [c]) := by
  have hbytes : Text.bytes read + c.utf8Size = Text.bytes (read ++ [c]) := by
    rw [Text.bytes_append, Text.bytes_cons, Text.bytes_nil, Nat.add_zero]
  -- Whatever is outside of tags after `c`, an opening brace was read outside of literals.
  have houtside (hq : c = '{' → (scanned read).state.isQuoted = false) :
      Scan.Sound (read ++ [c]) ⟨.content (c = '{'), Text.bytes read + c.utf8Size, [], []⟩ := by
    rw [hbytes]
    refine .outside _ fun hc => ?_
    have hc : c = '{' := by simpa using hc
    exact ⟨read, by rw [hc], hq hc⟩
  rw [scanned_concat]
  generalize hs : scanned read = s at h houtside ⊢
  cases h with
  | outside brace hb =>
    by_cases hopen : brace = true ∧ c = '?'
    · obtain ⟨rfl, rfl⟩ := hopen
      obtain ⟨before, hread, hbefore⟩ := hb rfl
      rw [Scan.advance_open rfl]
      have hr : read ++ ['?'] = before ++ '{' :: '?' :: [] := by rw [hread]; simp
      have hn : Text.bytes read + 1 = Text.bytes (read ++ ['?']) := hbytes
      simp only [hn]
      exact .inside before [] .opened [] hr hbefore rfl
    · rw [Scan.advance_content rfl c hopen]
      exact houtside fun _ => rfl
  | inside before rest q tokens hread hbefore hrest =>
    have hq : q.isInside = true := ScanState.follow?_inside rfl hrest
    cases hstep : q.step c with
    | next r token =>
      rw [Scan.advance_next hq hstep]
      have hr : read ++ [c] = before ++ '{' :: '?' :: (rest ++ [c]) := by rw [hread]; simp
      have hf : ScanState.opened.follow? (rest ++ [c]) = some (r, tokens ++ token.toList) := by
        rw [ScanState.follow?_append hrest]
        simp [ScanState.follow?, hstep]
      rw [hbytes]
      exact .inside before (rest ++ [c]) r (tokens ++ token.toList) hr hbefore hf
    | close =>
      rw [Scan.advance_close hstep, hbytes]
      exact .outside false fun h => absurd h Bool.false_ne_true
    | abandon =>
      rw [Scan.advance_abandon hstep]
      refine houtside fun hc => ?_
      cases hquoted : q.isQuoted with
      | false => rfl
      | true =>
        obtain ⟨r, hr, _⟩ := ScanState.step_brace_quoted hquoted
        rw [hc, hr] at hstep
        cases hstep

theorem sound_scanned (read : Text) : (scanned read).Sound read := by
  induction read using List.reverseRecOn with
  | nil => exact .outside false nofun
  | append_singleton read c ih => exact sound_concat ih c

theorem offset_scanned (read : Text) : (scanned read).offset = Text.bytes read := by
  have h := sound_scanned read
  generalize scanned read = s at h ⊢
  cases h <;> rfl

/-- A tag is read at every place outside of literals at which a well-formed tag stands, and
nowhere else; what was read before it is of no further account. -/
theorem mem_scan_iff {source : Text} {tag : Tag} :
    tag ∈ scan source ↔ ∃ before rest after tokens,
      source = before ++ '{' :: '?' :: rest ++ after ∧
      (scanned before).state.isQuoted = false ∧
      ScanState.opened.finish? rest = some tokens ∧
      tag = ⟨.opening :: tokens, '{' :: '?' :: rest, Text.bytes before,
        Text.bytes before + Text.bytes ('{' :: '?' :: rest)⟩ := by
  constructor
  · intro h
    obtain ⟨read, c, after, rfl, htag⟩ := Scan.mem_run_iff.mp h
    change ((scanned read).advance c).2 = some tag at htag
    have hsound := sound_scanned read
    generalize scanned read = s at hsound htag
    cases hsound with
    | outside brace hb =>
      by_cases hopen : brace = true ∧ c = '?'
      · obtain ⟨rfl, rfl⟩ := hopen
        rw [Scan.advance_open rfl] at htag
        cases htag
      · rw [Scan.advance_content rfl c hopen] at htag
        cases htag
    | inside before rest q tokens hread hbefore hrest =>
      have hq : q.isInside = true := ScanState.follow?_inside rfl hrest
      cases hstep : q.step c with
      | next r token => rw [Scan.advance_next hq hstep] at htag; cases htag
      | abandon => rw [Scan.advance_abandon hstep] at htag; cases htag
      | close =>
        have hfinish : ScanState.opened.finish? (rest ++ [c]) = some (tokens ++ [.closing]) := by
          rw [ScanState.finish?_append hrest, ScanState.finish?_close hstep]; rfl
        subst hread
        rw [Scan.advance_end tokens hstep] at htag
        exact ⟨before, rest ++ [c], after, tokens ++ [.closing], by simp, hbefore, hfinish,
          (Option.some.inj htag).symm⟩
  · rintro ⟨before, rest, after, tokens, rfl, hbefore, hrest, rfl⟩
    have hopen : (scanned before).run ('{' :: '?' :: rest ++ after) =
        (⟨.opened, (scanned before).offset + 1 + 1, [.opening], ['{', '?']⟩ : Scan).run
          (rest ++ after) := by
      simp [Scan.run, Scan.advance_brace hbefore, Scan.advance_open]
    have hb : Text.bytes ('{' :: '?' :: rest) = 1 + (1 + Text.bytes rest) := rfl
    have htwo : Text.bytes ['{', '?'] = 2 := rfl
    rw [List.append_assoc, scan_append, hopen, Scan.run_finish rfl hrest, offset_scanned]
    refine List.mem_append_right _ (List.mem_cons.mpr (.inl ?_))
    simp [hb, htwo]
    omega

theorem isWhole_iff {code : Text} {tag : Tag} :
    IsWhole code tag ↔ ∃ rest tokens, code = '{' :: '?' :: rest ∧
      ScanState.opened.finish? rest = some tokens ∧
      tag = ⟨.opening :: tokens, code, 0, Text.bytes code⟩ := by
  constructor
  · rintro ⟨hscan, hstart, hstop⟩
    have hmem : tag ∈ scan code := by rw [hscan]; exact List.mem_singleton.mpr rfl
    obtain ⟨before, rest, after, tokens, hcode, _, hrest, rfl⟩ := mem_scan_iff.mp hmem
    have hbefore : before = [] := Text.bytes_eq_zero hstart
    subst hbefore
    have hafter : after = [] := by
      apply Text.bytes_eq_zero
      rw [hcode, Text.bytes_append] at hstop
      simp [Text.bytes_nil] at hstop
      omega
    subst hafter
    obtain rfl : code = '{' :: '?' :: rest := by simpa using hcode
    exact ⟨rest, tokens, rfl, hrest, by simp [Text.bytes_nil]⟩
  · rintro ⟨rest, tokens, rfl, hrest, rfl⟩
    have hscan : scan ('{' :: '?' :: (rest ++ [])) =
        (⟨.opened, 2, [.opening], ['{', '?']⟩ : Scan).run (rest ++ []) := rfl
    refine ⟨?_, rfl, rfl⟩
    rw [← List.append_nil rest, hscan, Scan.run_finish rfl hrest]
    have hb : Text.bytes ('{' :: '?' :: rest) = 2 + Text.bytes rest := by
      simp only [Text.bytes_cons]; rw [← Nat.add_assoc]; rfl
    simp [Scan.run, hb, show Text.bytes ['{', '?'] = 2 from rfl]

/-- A well-formed tag is found, at its place and with its tokens, unless the text before it leaves
a literal open: an abandoned tag never hides one that follows. -/
theorem found_iff_not_quoted (before code after : Text) (tag : Tag) (h : IsWhole code tag) :
    (∃ found ∈ scan (before ++ code ++ after), found.start = Text.bytes before ∧
      found.stop = Text.bytes before + Text.bytes code ∧ found.tokens = tag.tokens) ↔
      (scanned before).state.isQuoted = false := by
  obtain ⟨rest, tokens, rfl, hrest, rfl⟩ := isWhole_iff.mp h
  constructor
  · rintro ⟨found, hmem, hstart, _, _⟩
    obtain ⟨before', rest', after', tokens', hsource, hbefore, _, rfl⟩ := mem_scan_iff.mp hmem
    rw [List.append_assoc, List.append_assoc] at hsource
    obtain ⟨rfl, _⟩ := Text.bytes_append_inj hsource hstart.symm
    exact hbefore
  · intro hbefore
    refine ⟨_, mem_scan_iff.mpr ⟨before, rest, after, tokens, rfl, hbefore, hrest, rfl⟩, ?_⟩
    exact ⟨rfl, rfl, rfl⟩

/-- The brace that ends an attempt opens the tag behind it. -/
theorem found_behind_abandoned :
    IsWhole ['{', '?', 'b', '?', '}']
      ⟨[.opening, .key .parameter ['b'], .closing], ['{', '?', 'b', '?', '}'], 0, 5⟩ ∧
    ∃ found ∈ scan (['{', '?', 'a', '.'] ++ ['{', '?', 'b', '?', '}'] ++ ['?', '}']),
      found.start = 4 ∧ found.stop = 9 ∧
      found.tokens = [.opening, .key .parameter ['b'], .closing] := by
  have h : IsWhole ['{', '?', 'b', '?', '}']
      ⟨[.opening, .key .parameter ['b'], .closing], ['{', '?', 'b', '?', '}'], 0, 5⟩ := by
    refine ⟨?_, rfl, ?_⟩ <;> decide
  exact ⟨h, (found_iff_not_quoted ['{', '?', 'a', '.'] _ ['?', '}'] _ h).mpr (by decide)⟩

end Tag

end Scaffold
