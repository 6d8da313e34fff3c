import Scaffold.Tag.Scanner

/-!
What the scanner does with a whole text. Inside a tag its state depends on nothing but the text
since the opening `{?`, so a tag can be read on its own (`finish?`). Main statements: a tag ends
where it first can (`finish?_unextended`), a brace is the first character of a tag unless it stands
in a literal (`advance_brace`), and the scan reads a tag as it would be read on its own
(`run_finish`).
-/

namespace Scaffold

namespace Text

theorem bytes_eq_zero {t : Text} (h : bytes t = 0) : t = [] := by
  cases t with
  | nil => rfl
  | cons c t =>
    have := Char.utf8Size_pos c
    rw [bytes_cons] at h
    omega

theorem bytes_append_inj {a b c d : Text} (h : a ++ b = c ++ d) (hb : bytes a = bytes c) :
    a = c ∧ b = d := by
  induction a generalizing c with
  | nil =>
    have hc : c = [] := bytes_eq_zero hb.symm
    subst hc
    exact ⟨rfl, h⟩
  | cons x a ih =>
    cases c with
    | nil => exact absurd (bytes_eq_zero hb) (by simp)
    | cons y c =>
      rw [List.cons_append, List.cons_append] at h
      obtain ⟨rfl, ht⟩ := List.cons.inj h
      obtain ⟨rfl, rfl⟩ := ih ht (by simpa [bytes_cons] using hb)
      exact ⟨rfl, rfl⟩

end Text

namespace ScanState

def isInside : ScanState → Bool
  | .content _ => false
  | _ => true

/-- Within a quoted literal. -/
def isQuoted : ScanState → Bool
  | .default _ | .string _ => true
  | _ => false

/-- The state after a text that does not leave the tag, and the tokens of that text. -/
def follow? (q : ScanState) : Text → Option (ScanState × List Token)
  | [] => some (q, [])
  | c :: t =>
    match q.step c with
    | .next q token => (q.follow? t).map fun p => (p.1, token.toList ++ p.2)
    | _ => none

/-- The tokens of a text that closes the tag with its last character and not before. -/
def finish? (q : ScanState) : Text → Option (List Token)
  | [] => none
  | c :: t =>
    match q.step c with
    | .next q token => (q.finish? t).map (token.toList ++ ·)
    | .close => if t = [] then some [.closing] else none
    | .abandon => none

/-- What may stand behind a complete part of a tag, and where it leads. -/
theorem afterPart_cases {c : Char} {token : Option Token} {r : ScanState} {out : Option Token}
    (h : afterPart c token = .next r out) :
    out = token ∧ ((c = '.' ∧ r = .filter []) ∨ (c = '?' ∧ r = .closing true) ∨
      (Text.isBlank c = true ∧ r = .closing false)) := by
  unfold afterPart at h
  split at h
  · next hc => cases h; exact ⟨rfl, .inl ⟨hc, rfl⟩⟩
  · split at h
    · next hc => cases h; exact ⟨rfl, .inr (.inl ⟨hc, rfl⟩)⟩
    · split at h
      · next hc => cases h; exact ⟨rfl, .inr (.inr ⟨hc, rfl⟩)⟩
      · cases h

/-- What may stand behind a number or a variable, and where it leads. -/
theorem afterWord_cases {c : Char} {arg : Argument} {r : ScanState} {out : Option Token}
    (h : afterWord c arg = .next r out) :
    out = some (.argument arg) ∧ ((c = ')' ∧ r = .argumentsClosed) ∨
      (c = ',' ∧ r = .argumentsOpened) ∨ (Text.isBlank c = true ∧ r = .argumentClosed)) := by
  unfold afterWord emit at h
  split at h
  · next hc => cases h; exact ⟨rfl, .inl ⟨hc, rfl⟩⟩
  · split at h
    · next hc => cases h; exact ⟨rfl, .inr (.inl ⟨hc, rfl⟩)⟩
    · split at h
      · next hc => cases h; exact ⟨rfl, .inr (.inr ⟨hc, rfl⟩)⟩
      · cases h

theorem afterPart_inside {c : Char} {token : Option Token} {r : ScanState} {out : Option Token}
    (h : afterPart c token = .next r out) : r.isInside = true ∧ out = token := by
  obtain ⟨rfl, ⟨_, rfl⟩ | ⟨_, rfl⟩ | ⟨_, rfl⟩⟩ := afterPart_cases h
  · exact ⟨rfl, rfl⟩
  · exact ⟨rfl, rfl⟩
  · exact ⟨rfl, rfl⟩

theorem afterWord_inside {c : Char} {arg : Argument} {r : ScanState} {out : Option Token}
    (h : afterWord c arg = .next r out) : r.isInside = true ∧ out = some (.argument arg) := by
  obtain ⟨rfl, ⟨_, rfl⟩ | ⟨_, rfl⟩ | ⟨_, rfl⟩⟩ := afterWord_cases h
  · exact ⟨rfl, rfl⟩
  · exact ⟨rfl, rfl⟩
  · exact ⟨rfl, rfl⟩

/-- Inside a tag no character leads out of it without ending it, and none opens a second one. -/
theorem step_inside {q r : ScanState} {c : Char} {token : Option Token} (hq : q.isInside = true)
    (h : q.step c = .next r token) : r.isInside = true ∧ token ≠ some .opening := by
  have part : ∀ {t}, t ≠ some Token.opening → afterPart c t = .next r token →
      r.isInside = true ∧ token ≠ some .opening := by
    intro t ht hp
    obtain ⟨hr, rfl⟩ := afterPart_inside hp
    exact ⟨hr, ht⟩
  have word : ∀ {arg}, afterWord c arg = .next r token →
      r.isInside = true ∧ token ≠ some .opening := by
    intro arg hw
    obtain ⟨hr, rfl⟩ := afterWord_inside hw
    exact ⟨hr, by simp⟩
  cases q with
  | content brace => cases hq
  | opened => simp only [step, go] at h; grind [isInside]
  | key name => simp only [step, go, emit] at h; grind [isInside]
  | defaultOpened => simp only [step, go] at h; grind [isInside]
  | default literal => simp only [step, go, emit] at h; grind [isInside]
  | defaultClosed => simp only [step, go] at h; grind [isInside]
  | filter name =>
    cases name with
    | nil => simp only [step, go] at h; grind [isInside]
    | cons d name => simp only [step, go, emit] at h; grind [isInside]
  | argumentsOpened => simp only [step, go] at h; grind [isInside]
  | string literal => simp only [step, go, emit] at h; grind [isInside]
  | number text => simp only [step, go] at h; grind [isInside]
  | «variable» name => simp only [step, go] at h; grind [isInside]
  | argumentClosed => simp only [step, go] at h; grind [isInside]
  | argumentsClosed => simp only [step] at h; grind [isInside]
  | closing question => simp only [step, go] at h; grind [isInside]

/-- A literal takes in an opening brace; everywhere else that brace ends what was begun. -/
theorem step_brace_quoted {q : ScanState} (hq : q.isQuoted = true) :
    ∃ r, q.step '{' = .next r none ∧ r.isQuoted = true := by
  cases q with
  | default literal => exact ⟨.default ⟨literal.raw ++ ['{'], false⟩, rfl, rfl⟩
  | string literal => exact ⟨.string ⟨literal.raw ++ ['{'], false⟩, rfl, rfl⟩
  | _ => cases hq

theorem step_brace_unquoted {q : ScanState} (hq : q.isQuoted = false) :
    q.step '{' = .next (.content true) none ∨ q.step '{' = .abandon := by
  cases q with
  | content brace => exact .inl (by cases brace <;> rfl)
  | default literal => cases hq
  | string literal => cases hq
  | filter name => right; cases name <;> rfl
  | number text => exact .inr (by simp [step, afterWord, Text.isBlank])
  | _ => exact .inr rfl

theorem follow?_inside {q r : ScanState} {t : Text} {tokens : List Token}
    (hq : q.isInside = true) (h : q.follow? t = some (r, tokens)) : r.isInside = true := by
  induction t generalizing q tokens with
  | nil => cases h; exact hq
  | cons c t ih =>
    rw [follow?] at h
    split at h
    · next q' token hs =>
      obtain ⟨p, hp, he⟩ := Option.map_eq_some_iff.mp h
      obtain ⟨rfl, _⟩ := Prod.mk.inj he
      exact ih (step_inside hq hs).1 hp
    · cases h

theorem follow?_append {q r : ScanState} {t : Text} {a : List Token}
    (h : q.follow? t = some (r, a)) (u : Text) :
    q.follow? (t ++ u) = (r.follow? u).map fun p => (p.1, a ++ p.2) := by
  induction t generalizing q a with
  | nil => cases h; simp
  | cons c t ih =>
    rw [follow?] at h
    rw [List.cons_append, follow?]
    split at h
    · next q' token hs =>
      obtain ⟨p, hp, he⟩ := Option.map_eq_some_iff.mp h
      obtain ⟨rfl, rfl⟩ := Prod.mk.inj he
      simp [ih hp, Function.comp_def]
    · cases h

theorem finish?_append {q r : ScanState} {t : Text} {a : List Token}
    (h : q.follow? t = some (r, a)) (u : Text) :
    q.finish? (t ++ u) = (r.finish? u).map (a ++ ·) := by
  induction t generalizing q a with
  | nil => cases h; simp
  | cons c t ih =>
    rw [follow?] at h
    rw [List.cons_append, finish?]
    split at h
    · next q' token hs =>
      obtain ⟨p, hp, he⟩ := Option.map_eq_some_iff.mp h
      obtain ⟨rfl, rfl⟩ := Prod.mk.inj he
      simp [hs, ih hp, Function.comp_def]
    · cases h

theorem finish?_close {q : ScanState} {c : Char} (h : q.step c = .close) :
    q.finish? [c] = some [.closing] := by
  simp [finish?, h]

/-- A tag ends where it first can. -/
theorem finish?_unextended {q : ScanState} {t u : Text} {a b : List Token}
    (ht : q.finish? t = some a) (hu : q.finish? (t ++ u) = some b) : u = [] := by
  induction t generalizing q a b with
  | nil => cases ht
  | cons c t ih =>
    rw [finish?] at ht
    rw [List.cons_append, finish?] at hu
    cases hs : q.step c with
    | next r token =>
      rw [hs] at ht hu
      obtain ⟨a', ha, _⟩ := Option.map_eq_some_iff.mp ht
      obtain ⟨b', hb, _⟩ := Option.map_eq_some_iff.mp hu
      exact ih ha hb
    | close =>
      rw [hs] at ht hu
      by_cases he : t ++ u = []
      · exact (List.append_eq_nil_iff.mp he).2
      · simp [he] at hu
    | abandon => rw [hs] at ht; cases ht

end ScanState

namespace Scan

/-- The scan after a text. -/
def after (s : Scan) (t : Text) : Scan := t.foldl (fun s c => (s.advance c).1) s

theorem after_append (s : Scan) (t u : Text) : s.after (t ++ u) = (s.after t).after u :=
  List.foldl_append

theorem run_append (s : Scan) (t u : Text) : s.run (t ++ u) = s.run t ++ (s.after t).run u := by
  induction t generalizing s with
  | nil => rfl
  | cons c t ih => simp [run, after, ih (s.advance c).1]

theorem mem_run_iff {s : Scan} {t : Text} {tag : Tag} :
    tag ∈ s.run t ↔ ∃ u c v, t = u ++ c :: v ∧ ((s.after u).advance c).2 = some tag := by
  induction t generalizing s with
  | nil => simp [run]
  | cons c t ih =>
    rw [run, List.mem_append, Option.mem_toList, ih]
    constructor
    · rintro (h | ⟨u, d, v, rfl, h⟩)
      · exact ⟨[], c, t, rfl, h⟩
      · exact ⟨c :: u, d, v, rfl, h⟩
    · rintro ⟨u, d, v, ht, h⟩
      cases u with
      | nil =>
        obtain ⟨rfl, rfl⟩ := List.cons.inj ht
        exact .inl h
      | cons x u =>
        rw [List.cons_append] at ht
        obtain ⟨rfl, rfl⟩ := List.cons.inj ht
        exact .inr ⟨u, d, v, rfl, h⟩

theorem advance_next {s : Scan} {c : Char} {r : ScanState} {token : Option Token}
    (hs : s.state.isInside = true) (h : s.state.step c = .next r token) :
    s.advance c =
      (⟨r, s.offset + c.utf8Size, s.tokens ++ token.toList, s.code ++ [c]⟩, none) := by
  obtain ⟨hr, ht⟩ := ScanState.step_inside hs h
  unfold advance
  rw [h]
  cases r with
  | content brace => cases hr
  | _ => cases token with
    | none => rfl
    | some t => cases t <;> first | rfl | exact absurd rfl ht

theorem advance_close {s : Scan} {c : Char} (h : s.state.step c = .close) :
    s.advance c =
      (⟨.content false, s.offset + c.utf8Size, [], []⟩,
        some ⟨s.tokens ++ [.closing], s.code ++ [c],
          s.offset + c.utf8Size - Text.bytes (s.code ++ [c]), s.offset + c.utf8Size⟩) := by
  simp only [advance, h]

theorem advance_abandon {s : Scan} {c : Char} (h : s.state.step c = .abandon) :
    s.advance c = (⟨.content (c = '{'), s.offset + c.utf8Size, [], []⟩, none) := by
  simp only [advance, h]

theorem advance_content {s : Scan} {brace : Bool} (hs : s.state = .content brace) (c : Char)
    (h : ¬ (brace = true ∧ c = '?')) :
    s.advance c = (⟨.content (c = '{'), s.offset + c.utf8Size, [], []⟩, none) := by
  have hstep : s.state.step c = .next (.content (c = '{')) none := by
    rw [hs, ScanState.step, if_neg h]; rfl
  simp only [advance, hstep]

theorem advance_open {s : Scan} (hs : s.state = .content true) :
    s.advance '?' = (⟨.opened, s.offset + 1, [.opening], ['{', '?']⟩, none) := by
  have hstep : s.state.step '?' = .next .opened (some .opening) := by rw [hs]; rfl
  simp only [advance, hstep]; rfl

/-- A brace is the first character of a tag, unless it stands in a literal. -/
theorem advance_brace {s : Scan} (hs : s.state.isQuoted = false) :
    s.advance '{' = (⟨.content true, s.offset + 1, [], []⟩, none) := by
  rcases ScanState.step_brace_unquoted hs with h | h
  · simp only [advance, h]; rfl
  · rw [advance_abandon h]; rfl

/-- The rest of a tag is read in one go. -/
theorem run_finish {s : Scan} {u : Text} {tokens : List Token} (hs : s.state.isInside = true)
    (h : s.state.finish? u = some tokens) (v : Text) :
    s.run (u ++ v) =
      ⟨s.tokens ++ tokens, s.code ++ u, s.offset - Text.bytes s.code, s.offset + Text.bytes u⟩ ::
        (⟨.content false, s.offset + Text.bytes u, [], []⟩ : Scan).run v := by
  induction u generalizing s tokens with
  | nil => cases h
  | cons c u ih =>
    rw [ScanState.finish?] at h
    rw [List.cons_append, run]
    cases hstep : s.state.step c with
    | next r token =>
      rw [hstep] at h
      obtain ⟨rest, hrest, rfl⟩ := Option.map_eq_some_iff.mp h
      rw [advance_next hs hstep]
      have hr := (ScanState.step_inside hs hstep).1
      have hb : s.offset + c.utf8Size - Text.bytes (s.code ++ [c]) =
          s.offset - Text.bytes s.code := by
        rw [Text.bytes_append, Text.bytes_cons, Text.bytes_nil]; omega
      simp [ih (s := ⟨r, s.offset + c.utf8Size, s.tokens ++ token.toList, s.code ++ [c]⟩) hr hrest,
        hb, Text.bytes_cons, Nat.add_assoc]
    | close =>
      rw [hstep] at h
      by_cases hu : u = []
      · subst hu
        have ht : tokens = [.closing] := by simpa using h.symm
        have hb : s.offset + c.utf8Size - Text.bytes (s.code ++ [c]) =
            s.offset - Text.bytes s.code := by
          rw [Text.bytes_append, Text.bytes_cons, Text.bytes_nil]; omega
        simp [advance_close hstep, hb, ht, Text.bytes_cons, Text.bytes_nil]
      · simp [hu] at h
    | abandon => rw [hstep] at h; cases h

end Scan

end Scaffold
