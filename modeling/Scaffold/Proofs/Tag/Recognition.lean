import Scaffold.Proofs.Tag.Grammar
import Scaffold.Proofs.Tag.Occurrence

/-!
The scanner reads exactly the texts of the grammar, with the tokens of their derivations. Main
statement: `whole_iff_derived`.
-/

namespace Scaffold

namespace Grammar

/-! ## Literals, character by character -/

/-- The rest of a literal body, `escaped` telling whether a backslash stands before it. -/
def Closes : Bool → Text → Prop
  | escaped, [] => escaped = false
  | escaped, c :: t => (c = '"' → escaped = true) ∧ Closes (c = '\\') t

theorem closes_iff (escaped : Bool) (t : Text) :
    Closes escaped t ↔
      (∀ before after, t = before ++ '"' :: after →
        before.getLast?.elim escaped (fun c => decide (c = '\\')) = true) ∧
      t.getLast?.elim escaped (fun c => decide (c = '\\')) = false := by
  induction t generalizing escaped with
  | nil => simp [Closes]
  | cons c t ih =>
    have hlast (u : Text) : (c :: u).getLast?.elim escaped (fun c => decide (c = '\\')) =
        u.getLast?.elim (decide (c = '\\')) (fun c => decide (c = '\\')) := by
      cases hu : u.getLast? <;> simp [List.getLast?_cons, hu]
    rw [Closes, ih, hlast]
    constructor
    · rintro ⟨hc, hquotes, hend⟩
      refine ⟨fun before after h => ?_, hend⟩
      cases before with
      | nil => exact hc (List.cons.inj h).1
      | cons d before =>
        obtain ⟨rfl, ht⟩ := List.cons.inj h
        rw [hlast]
        exact hquotes before after ht
    · rintro ⟨hquotes, hend⟩
      refine ⟨fun hc => hquotes [] t (by rw [hc]; rfl), fun before after h => ?_, hend⟩
      rw [← hlast]
      exact hquotes (c :: before) after (by rw [h]; rfl)

theorem Literal.closes (l : Literal) : Closes false l.body := by
  refine (closes_iff false l.body).mpr ⟨fun before after h => ?_, ?_⟩
  · rw [l.quotes_escaped before after h]; rfl
  · cases h : l.body.getLast? with
    | none => rfl
    | some c =>
      have hc : c ≠ '\\' := fun hc => l.not_escaping (by rw [h, hc])
      simpa using hc

theorem literal_of_closes {t : Text} (h : Closes false t) : ∃ l : Literal, l.body = t := by
  obtain ⟨hquotes, hend⟩ := (closes_iff false t).mp h
  refine ⟨⟨t, fun before after ht => ?_, fun hlast => ?_⟩, rfl⟩
  · have hb := hquotes before after ht
    cases hbefore : before.getLast? with
    | none => rw [hbefore] at hb; cases hb
    | some c => rw [hbefore] at hb; simpa using hb
  · rw [hlast] at hend; cases hend

end Grammar

namespace Quoted

open Grammar (Closes)

theorem push_text {q : Quoted} {c : Char} {text : Text} (h : q.push c = .inl text) :
    c = '"' ∧ q.afterBackslash = false ∧ text = unescape q.raw := by
  unfold push at h
  split at h
  · next hc => cases h; exact ⟨hc.1, hc.2, rfl⟩
  · cases h

theorem push_longer {q m : Quoted} {c : Char} {u : Text} (h : q.push c = .inr m)
    (hu : Closes m.afterBackslash u) :
    m.raw ++ u = q.raw ++ c :: u ∧ Closes q.afterBackslash (c :: u) := by
  unfold push at h
  split at h
  · cases h
  · next hc =>
    cases h
    refine ⟨by simp, fun hquote => ?_, hu⟩
    cases hescaped : q.afterBackslash with
    | true => rfl
    | false => exact absurd ⟨hquote, hescaped⟩ hc

theorem push_of_closes {q : Quoted} {c : Char} {t : Text} (h : Closes q.afterBackslash (c :: t)) :
    q.push c = .inr ⟨q.raw ++ [c], c = '\\'⟩ := by
  refine if_neg fun hquote => ?_
  rw [h.1 hquote.1] at hquote
  cases hquote.2

end Quoted

namespace ScanState

open Grammar

/-! ## Every text of the grammar is read -/

theorem finish?_cons {q r : ScanState} {c : Char} {token : Option Token} {t : Text}
    {k : List Token} (h : q.step c = .next r token) (ht : r.finish? t = some k) :
    q.finish? (c :: t) = some (token.toList ++ k) := by
  rw [finish?, h]; simp [ht]

theorem finish?_follow {q r : ScanState} {t u : Text} {a b : List Token}
    (h : q.follow? t = some (r, a)) (hu : r.finish? u = some b) :
    q.finish? (t ++ u) = some (a ++ b) := by
  rw [finish?_append h, hu]; rfl

theorem follow?_cons {q r s : ScanState} {c : Char} {token : Option Token} {t : Text}
    {k : List Token} (h : q.step c = .next r token) (ht : r.follow? t = some (s, k)) :
    q.follow? (c :: t) = some (s, token.toList ++ k) := by
  rw [follow?, h]; simp [ht]

theorem follow?_trans {q r s : ScanState} {t u : Text} {a b : List Token}
    (h : q.follow? t = some (r, a)) (hu : r.follow? u = some (s, b)) :
    q.follow? (t ++ u) = some (s, a ++ b) := by
  rw [follow?_append h, hu]; rfl

theorem follow?_loop {p : Char → Bool} {q : ScanState}
    (h : ∀ c, p c = true → q.step c = .next q none) (t : Run p) :
    q.follow? t.1 = some (q, []) := by
  obtain ⟨t, ht⟩ := t
  induction t with
  | nil => rfl
  | cons c t ih =>
    rw [List.all_cons, Bool.and_eq_true] at ht
    exact follow?_cons (h c ht.1) (ih ht.2)

theorem follow?_gather {p : Char → Bool} {f : Text → ScanState}
    (h : ∀ n c, p c = true → (f n).step c = .next (f (n ++ [c])) none) (n : Text) (t : Run p) :
    (f n).follow? t.1 = some (f (n ++ t.1), []) := by
  obtain ⟨t, ht⟩ := t
  induction t generalizing n with
  | nil => simp [follow?]
  | cons c t ih =>
    rw [List.all_cons, Bool.and_eq_true] at ht
    have hrest := ih (n ++ [c]) ht.2
    rw [List.append_assoc] at hrest
    exact follow?_cons (h n c ht.1) hrest

theorem follow?_literal {f : Quoted → ScanState}
    (h : ∀ l c m, l.push c = .inr m → (f l).step c = .next (f m) none) {t : Text} (l : Quoted)
    (ht : Closes l.afterBackslash t) : (f l).follow? t = some (f ⟨l.raw ++ t, false⟩, []) := by
  induction t generalizing l with
  | nil =>
    obtain ⟨raw, escaped⟩ := l
    obtain rfl : escaped = false := ht
    simp [follow?]
  | cons c t ih =>
    have hrest := ih ⟨l.raw ++ [c], c = '\\'⟩ ht.2
    simp only [List.append_assoc] at hrest
    exact follow?_cons (h l c _ (Quoted.push_of_closes ht)) hrest

theorem finish?_marks (question : Bool) (x : Marks) :
    (ScanState.closing question).finish? (x.1 ++ ['?', '}']) = some [.closing] := by
  obtain ⟨t, ht⟩ := x
  induction t generalizing question with
  | nil => cases question <;> rfl
  | cons c t ih =>
    rw [List.all_cons, Bool.and_eq_true] at ht
    have hstep : (ScanState.closing question).step c = .next (.closing (c == '?')) none := by
      have hbrace : c ≠ '}' := by
        rintro rfl
        exact absurd ht.1 (by decide)
      have hc := ht.1
      by_cases hq : c = '?' <;> simp_all [step, go]
    exact finish?_cons hstep (ih _ ht.2)

/-- The characters that may follow a complete part of a tag. -/
private theorem part_char {c : Char} (h : c = '.' ∨ c = '?' ∨ Text.isBlank c = true) :
    isNameChar c = false ∧ c ≠ '[' ∧ c ≠ ']' ∧ c ≠ '(' := by
  rcases h with rfl | rfl | h
  · decide
  · decide
  · refine ⟨blank_not_nameChar h, ?_, ?_, ?_⟩ <;> (rintro rfl; exact absurd h (by decide))

/-- The character that ends an argument, and the state it leads to. -/
inductive ArgEnd : Char → ScanState → Prop
  | parenthesis : ArgEnd ')' .argumentsClosed
  | comma : ArgEnd ',' .argumentsOpened

private theorem follow?_argumentClosed {d : Char} {r : ScanState} (hd : ArgEnd d r)
    (after : Blanks) : ScanState.argumentClosed.follow? (after.1 ++ [d]) = some (r, []) := by
  have hblanks : ScanState.argumentClosed.follow? after.1 = some (.argumentClosed, []) :=
    follow?_loop (fun c hc => by simp [step, go, hc]) after
  have hend : ScanState.argumentClosed.follow? [d] = some (r, []) := by cases hd <;> rfl
  exact follow?_trans hblanks hend

/-- A number or a variable ends with the first blank or with the end of the argument. -/
private theorem follow?_word {d : Char} {q r : ScanState} {arg : Argument} (hd : ArgEnd d r)
    (hq : ∀ c, c = ')' ∨ c = ',' ∨ Text.isBlank c = true → q.step c = afterWord c arg)
    (after : Blanks) : q.follow? (after.1 ++ [d]) = some (r, [.argument arg]) := by
  obtain ⟨t, ht⟩ := after
  cases t with
  | nil =>
    cases hd with
    | parenthesis => exact follow?_cons ((hq ')' (.inl rfl)).trans rfl) rfl
    | comma => exact follow?_cons ((hq ',' (.inr (.inl rfl))).trans rfl) rfl
  | cons c t =>
    rw [List.all_cons, Bool.and_eq_true] at ht
    have hstep : q.step c = .next .argumentClosed (some (.argument arg)) := by
      have hclose : c ≠ ')' := by rintro rfl; exact absurd ht.1 (by decide)
      have hcomma : c ≠ ',' := by rintro rfl; exact absurd ht.1 (by decide)
      rw [hq c (.inr (.inr ht.1))]
      simp [afterWord, emit, hclose, hcomma, ht.1]
    exact follow?_cons hstep (follow?_argumentClosed hd ⟨t, ht.2⟩)

/-- The characters behind a number or a variable are no part of it. -/
private theorem word_char {c : Char} (h : c = ')' ∨ c = ',' ∨ Text.isBlank c = true) :
    isNameChar c = false ∧ c.isDigit = false ∧ c ≠ '.' := by
  rcases h with rfl | rfl | h
  · decide
  · decide
  · refine ⟨blank_not_nameChar h, ?_, ?_⟩
    · refine Bool.eq_false_iff.mpr fun hd => ?_
      have hn := nameChar_of_digit hd
      rw [blank_not_nameChar h] at hn
      cases hn
    · rintro rfl; exact absurd h (by decide)

private theorem follow?_number {d : Char} {r : ScanState} (hd : ArgEnd d r) (n : Text)
    (hn : '.' ∉ n) (tail : Run Char.isDigit) (fraction : Option (Run Char.isDigit))
    (after : Blanks) :
    (ScanState.number n).follow? (tail.1 ++ (fractionText fraction ++ (after.1 ++ [d]))) =
      some (r, [.argument (.number (n ++ (tail.1 ++ fractionText fraction)))]) := by
  have digits (m : Text) (x : Run Char.isDigit) :
      (ScanState.number m).follow? x.1 = some (.number (m ++ x.1), []) :=
    follow?_gather (f := .number) (fun m c hc => by simp [step, go, hc]) m x
  have word (m : Text) : (ScanState.number m).follow? (after.1 ++ [d]) =
      some (r, [.argument (.number m)]) := by
    refine follow?_word hd (fun c hc => ?_) after
    obtain ⟨_, hdigit, hdot⟩ := word_char hc
    simp [step, hdigit, hdot]
  have htail : '.' ∉ n ++ tail.1 := by
    intro hmem
    rcases List.mem_append.mp hmem with h | h
    · exact hn h
    · exact absurd (List.all_eq_true.mp tail.2 _ h) (by decide)
  cases fraction with
  | none => simpa [fractionText] using follow?_trans (digits n tail) (word (n ++ tail.1))
  | some x =>
    have hdot : (ScanState.number (n ++ tail.1)).step '.' =
        .next (.number (n ++ tail.1 ++ ['.'])) none := by
      simp only [step, go, htail, not_false_eq_true, and_self, or_true, if_true]
    have hfraction := follow?_cons hdot (follow?_trans (digits _ x) (word _))
    simpa [fractionText] using follow?_trans (digits n tail) hfraction

theorem follow?_arg {d : Char} {r : ScanState} (hd : ArgEnd d r) (a : Arg) (after : Blanks) :
    ScanState.argumentsOpened.follow? (a.text ++ (after.1 ++ [d])) =
      some (r, [.argument a.argument]) := by
  cases a with
  | quoted l =>
    have hopen : ScanState.argumentsOpened.step '"' = .next (.string .empty) none := rfl
    have hbody : (ScanState.string .empty).follow? l.body = some (.string ⟨l.body, false⟩, []) :=
      follow?_literal (fun l c m hm => by simp [step, go, hm]) .empty l.closes
    have hclose : (ScanState.string ⟨l.body, false⟩).step '"' =
        .next .argumentClosed (some (.argument (.string (Quoted.unescape l.body)))) := rfl
    have hrest := follow?_trans hbody (follow?_cons hclose (follow?_argumentClosed hd after))
    simpa [Arg.text, Literal.text, Arg.argument] using follow?_cons hopen hrest
  | number c hc tail fraction =>
    have hopen : ScanState.argumentsOpened.step c = .next (.number [c]) none := by
      have hb : Text.isBlank c = false := nameChar_not_blank (nameChar_of_digit hc)
      have hq : c ≠ '"' := by rintro rfl; cases hc
      simp [step, go, hb, hq, hc]
    have hdot : '.' ∉ [c] := by
      intro h
      rw [← List.mem_singleton.mp h] at hc
      cases hc
    have hrest := follow?_number hd [c] hdot tail fraction after
    simpa [Arg.text, Arg.argument] using follow?_cons hopen hrest
  | name n =>
    obtain ⟨c, tail, hc⟩ := n
    have hopen : ScanState.argumentsOpened.step c = .next (.variable [c]) none := by
      have hb : Text.isBlank c = false := nameChar_not_blank (nameChar_of_start hc)
      have hq : c ≠ '"' := by rintro rfl; cases hc
      simp [step, go, hb, hq, start_not_digit hc, hc]
    have htail : (ScanState.variable [c]).follow? tail.1 = some (.variable (c :: tail.1), []) :=
      follow?_gather (f := .variable) (fun m c hc => by simp [step, go, hc]) [c] tail
    have hword : (ScanState.variable (c :: tail.1)).follow? (after.1 ++ [d]) =
        some (r, [.argument (.variable (c :: tail.1))]) := by
      refine follow?_word hd (fun c hc => ?_) after
      simp [step, (word_char hc).1]
    simpa [Arg.text, Arg.argument, Name.text] using
      follow?_cons hopen (follow?_trans htail hword)

theorem follow?_args (a : Args) :
    ScanState.argumentsOpened.follow? a.text = some (.argumentsClosed, a.tokens) := by
  have hblanks (x : Blanks) :
      ScanState.argumentsOpened.follow? x.1 = some (.argumentsOpened, []) :=
    follow?_loop (fun c hc => by simp [step, go, hc]) x
  induction a with
  | close x => exact follow?_trans (hblanks x) rfl
  | last x a after => exact follow?_trans (hblanks x) (follow?_arg .parenthesis a after)
  | more x a after rest ih =>
    have hrest := follow?_trans (follow?_arg .comma a after) ih
    simpa [Args.text, Args.tokens] using follow?_trans (hblanks x) hrest

/-- The end of a tag is read in every state that a part of the tag may end in. -/
theorem finish?_ending (e : Ending) {q : ScanState} (token : Option Token)
    (hq : ∀ c, c = '.' ∨ c = '?' ∨ Text.isBlank c = true → q.step c = afterPart c token) :
    q.finish? e.text = some (token.toList ++ e.tokens) := by
  obtain ⟨fs, x⟩ := e
  induction fs generalizing q token with
  | nil =>
    obtain ⟨t, ht⟩ := x
    cases t with
    | nil => exact finish?_cons ((hq '?' (.inr (.inl rfl))).trans rfl) (finish?_marks true ⟨[], rfl⟩)
    | cons c t =>
      rw [List.all_cons, Bool.and_eq_true] at ht
      have hstep : q.step c = .next (.closing (c == '?')) token := by
        rcases Bool.or_eq_true_iff.mp ht.1 with hc | hc
        · rw [hq c (.inr (.inr hc))]
          have hdot : c ≠ '.' := by rintro rfl; exact absurd hc (by decide)
          have hquestion : c ≠ '?' := by rintro rfl; exact absurd hc (by decide)
          simp [afterPart, hdot, hquestion, hc]
        · obtain rfl : c = '?' := eq_of_beq hc
          exact hq _ (.inr (.inl rfl))
      exact finish?_cons hstep (finish?_marks _ ⟨t, ht.2⟩)
  | cons f fs ih =>
    obtain ⟨⟨d, n, hd⟩, args⟩ := f
    have hdot : q.step '.' = .next (.filter []) token := hq '.' (.inl rfl)
    have hhead : (ScanState.filter []).step d = .next (.filter [d]) none := by
      simp [step, go, hd]
    have hname : (ScanState.filter [d]).follow? n.1 = some (.filter (d :: n.1), []) :=
      follow?_gather (f := fun t => .filter (d :: t)) (fun t c hc => by simp [step, go, hc]) [] n
    have hend : (ScanState.filter (d :: n.1)).finish? (callText args ++ (⟨fs, x⟩ : Ending).text) =
        some (.filter (d :: n.1) :: (callTokens args ++ (⟨fs, x⟩ : Ending).tokens)) := by
      cases args with
      | none =>
        refine ih (some (.filter (d :: n.1))) fun c hc => ?_
        obtain ⟨hn, _, _, hp⟩ := part_char hc
        simp [step, hn, hp]
      | some args =>
        have hopen : (ScanState.filter (d :: n.1)).step '(' =
            .next .argumentsOpened (some (.filter (d :: n.1))) := rfl
        have hrest := ih (q := .argumentsClosed) none fun _ _ => rfl
        exact finish?_cons hopen (finish?_follow (follow?_args args) hrest)
    have htext : (⟨⟨⟨d, n, hd⟩, args⟩ :: fs, x⟩ : Ending).text =
        '.' :: d :: (n.1 ++ (callText args ++ (⟨fs, x⟩ : Ending).text)) := by
      simp [Ending.text, FilterPart.text, Name.text]
    rw [htext]
    rw [finish?_cons hdot (finish?_cons hhead (finish?_follow hname hend))]
    simp [Ending.tokens, FilterPart.tokens, Name.text]

theorem finish?_rest (n : Text) (a : Rest) :
    (ScanState.key n).finish? a.text = some (a.tokens n) := by
  cases a with
  | helper args e =>
    have hopen : (ScanState.key n).step '(' =
        .next .argumentsOpened (some (.key .helper n)) := rfl
    have hrest := finish?_ending e (q := .argumentsClosed) none fun _ _ => rfl
    exact finish?_cons hopen (finish?_follow (follow?_args args) hrest)
  | parameter d e => cases d with
    | none =>
      refine finish?_ending e (some (.key .parameter n)) fun c hc => ?_
      obtain ⟨hn, hb, _, hp⟩ := part_char hc
      simp [step, hn, hb, hp]
    | some d =>
      obtain ⟨l, brackets⟩ := d
      have hopen : (ScanState.key n).step '[' =
          .next .defaultOpened (some (.key .parameter n)) := rfl
      have hquote : ScanState.defaultOpened.step '"' = .next (.default .empty) none := rfl
      have hbody : (ScanState.default .empty).follow? l.body =
          some (.default ⟨l.body, false⟩, []) :=
        follow?_literal (fun l c m hm => by simp [step, go, hm]) .empty l.closes
      have hclose : (ScanState.default ⟨l.body, false⟩).step '"' =
          .next .defaultClosed (some (.default (Quoted.unescape l.body))) := rfl
      have hbrackets : ScanState.defaultClosed.follow? brackets.1 = some (.defaultClosed, []) :=
        follow?_loop (fun c hc => by simp [step, go, eq_of_beq hc]) brackets
      have hend : ScanState.defaultClosed.finish? e.text = some e.tokens := by
        refine finish?_ending e none fun c hc => ?_
        simp [step, (part_char hc).2.2.1]
      have hrest := finish?_cons hclose (finish?_follow hbrackets hend)
      simpa [Rest.text, defaultText, Literal.text, Rest.tokens, defaultTokens] using
        finish?_cons hopen (finish?_cons hquote (finish?_follow hbody hrest))

theorem finish?_derived (d : Grammar.Tag) :
    ScanState.opened.finish? (d.blanks.1 ++ (d.name.text ++ d.rest.text)) =
      some (d.rest.tokens d.name.text) := by
  obtain ⟨x, ⟨c, tail, hc⟩, rest⟩ := d
  have hblanks : ScanState.opened.follow? x.1 = some (.opened, []) :=
    follow?_loop (fun c hc => by simp [step, go, hc]) x
  have hopen : ScanState.opened.step c = .next (.key [c]) none := by
    have hb : Text.isBlank c = false := nameChar_not_blank (nameChar_of_start hc)
    simp [step, go, hb, hc]
  have htail : (ScanState.key [c]).follow? tail.1 = some (.key (c :: tail.1), []) :=
    follow?_gather (f := .key) (fun m c hc => by simp [step, go, hc]) [c] tail
  exact finish?_follow hblanks
    (finish?_cons hopen (finish?_follow htail (finish?_rest (c :: tail.1) rest)))

/-! ## Every text that is read is one of the grammar -/

/-- What follows an argument and its blanks: the end of the call, or a comma and more of it. -/
def tailText : Option Args → Text
  | none => [')']
  | some args => ',' :: args.text

/-- The texts that lead from a state to the end of the tag, and their tokens, as the grammar has
them: the rest of what the state is in the middle of. -/
def Yields : ScanState → Text → List Token → Prop
  | .content _, _, _ => True
  | .opened, t, k =>
    ∃ (x : Blanks) (n : Name) (a : Rest), t = x.1 ++ (n.text ++ a.text) ∧ k = a.tokens n.text
  | .key n, t, k =>
    ∃ (x : Run isNameChar) (a : Rest), t = x.1 ++ a.text ∧ k = a.tokens (n ++ x.1)
  | .defaultOpened, t, k => ∃ (l : Literal) (x : Run (· == ']')) (e : Ending),
    t = l.text ++ (x.1 ++ e.text) ∧ k = .default (Quoted.unescape l.body) :: e.tokens
  | .default q, t, k => ∃ (u : Text) (x : Run (· == ']')) (e : Ending),
    Closes q.afterBackslash u ∧ t = u ++ '"' :: (x.1 ++ e.text) ∧
      k = .default (Quoted.unescape (q.raw ++ u)) :: e.tokens
  | .defaultClosed, t, k =>
    ∃ (x : Run (· == ']')) (e : Ending), t = x.1 ++ e.text ∧ k = e.tokens
  | .filter [], t, k => ∃ (f : FilterPart) (e : Ending),
    t = f.name.text ++ (callText f.args ++ e.text) ∧ k = f.tokens ++ e.tokens
  | .filter (d :: n), t, k => ∃ (x : Run isNameChar) (a : Option Args) (e : Ending),
    t = x.1 ++ (callText a ++ e.text) ∧
      k = .filter (d :: (n ++ x.1)) :: (callTokens a ++ e.tokens)
  | .argumentsOpened, t, k =>
    ∃ (a : Args) (e : Ending), t = a.text ++ e.text ∧ k = a.tokens ++ e.tokens
  | .string q, t, k => ∃ (u : Text) (x : Blanks) (a : Option Args) (e : Ending),
    Closes q.afterBackslash u ∧ t = u ++ '"' :: (x.1 ++ (tailText a ++ e.text)) ∧
      k = .argument (.string (Quoted.unescape (q.raw ++ u))) :: (callTokens a ++ e.tokens)
  | .number n, t, k => ∃ (y : Run Char.isDigit) (f : Option (Run Char.isDigit)) (x : Blanks)
      (a : Option Args) (e : Ending), (f.isSome = true → '.' ∉ n) ∧
      t = y.1 ++ (fractionText f ++ (x.1 ++ (tailText a ++ e.text))) ∧
      k = .argument (.number (n ++ (y.1 ++ fractionText f))) :: (callTokens a ++ e.tokens)
  | .variable n, t, k => ∃ (y : Run isNameChar) (x : Blanks) (a : Option Args) (e : Ending),
    t = y.1 ++ (x.1 ++ (tailText a ++ e.text)) ∧
      k = .argument (.variable (n ++ y.1)) :: (callTokens a ++ e.tokens)
  | .argumentClosed, t, k => ∃ (x : Blanks) (a : Option Args) (e : Ending),
    t = x.1 ++ (tailText a ++ e.text) ∧ k = callTokens a ++ e.tokens
  | .argumentsClosed, t, k => ∃ e : Ending, t = e.text ∧ k = e.tokens
  | .closing question, t, k =>
    k = [.closing] ∧ ((∃ x : Marks, t = x.1 ++ ['?', '}']) ∨ (question = true ∧ t = ['}']))

/-- One more character in front. -/
def runCons {p : Char → Bool} {c : Char} (hc : p c = true) (x : Run p) : Run p :=
  ⟨c :: x.1, by rw [List.all_cons, hc, x.2]; rfl⟩

private theorem yields_afterPart {c : Char} {token out : Option Token} {r : ScanState} {t : Text}
    {k : List Token} (h : afterPart c token = .next r out) (hy : Yields r t k) :
    ∃ e : Ending, c :: t = e.text ∧ out.toList ++ k = token.toList ++ e.tokens := by
  obtain ⟨rfl, ⟨rfl, rfl⟩ | ⟨rfl, rfl⟩ | ⟨hblank, rfl⟩⟩ := afterPart_cases h
  · obtain ⟨f, ⟨fs, x⟩, rfl, rfl⟩ := hy
    refine ⟨⟨f :: fs, x⟩, ?_, ?_⟩
    · simp [Ending.text, FilterPart.text]
    · simp [Ending.tokens]
  · obtain ⟨rfl, ⟨x, rfl⟩ | ⟨_, rfl⟩⟩ := hy
    · exact ⟨⟨[], runCons rfl x⟩, rfl, rfl⟩
    · exact ⟨⟨[], ⟨[], rfl⟩⟩, rfl, rfl⟩
  · obtain ⟨rfl, ⟨x, rfl⟩ | ⟨hfalse, _⟩⟩ := hy
    · exact ⟨⟨[], runCons (by simp [hblank]) x⟩, rfl, rfl⟩
    · cases hfalse

private theorem yields_afterWord {c : Char} {arg : Argument} {out : Option Token} {r : ScanState}
    {t : Text} {k : List Token} (h : afterWord c arg = .next r out) (hy : Yields r t k) :
    ∃ (x : Blanks) (a : Option Args) (e : Ending), c :: t = x.1 ++ (tailText a ++ e.text) ∧
      out.toList ++ k = .argument arg :: (callTokens a ++ e.tokens) := by
  obtain ⟨rfl, ⟨rfl, rfl⟩ | ⟨rfl, rfl⟩ | ⟨hblank, rfl⟩⟩ := afterWord_cases h
  · obtain ⟨e, rfl, rfl⟩ := hy
    exact ⟨⟨[], rfl⟩, none, e, rfl, rfl⟩
  · obtain ⟨a, e, rfl, rfl⟩ := hy
    exact ⟨⟨[], rfl⟩, some a, e, rfl, rfl⟩
  · obtain ⟨x, a, e, rfl, rfl⟩ := hy
    exact ⟨runCons hblank x, a, e, rfl, rfl⟩

/-- An argument and what follows it are arguments. -/
private theorem args_of_arg (x : Blanks) (a : Arg) (after : Blanks) (rest : Option Args) :
    ∃ as : Args, as.text = x.1 ++ (a.text ++ (after.1 ++ tailText rest)) ∧
      as.tokens = .argument a.argument :: callTokens rest := by
  cases rest with
  | none => exact ⟨.last x a after, rfl, rfl⟩
  | some rest => exact ⟨.more x a after rest, rfl, rfl⟩

private theorem args_blank {c : Char} (hc : Text.isBlank c = true) (a : Args) :
    ∃ as : Args, as.text = c :: a.text ∧ as.tokens = a.tokens := by
  cases a with
  | close x => exact ⟨.close (runCons hc x), rfl, rfl⟩
  | last x a after => exact ⟨.last (runCons hc x) a after, rfl, rfl⟩
  | more x a after rest => exact ⟨.more (runCons hc x) a after rest, rfl, rfl⟩

variable {q r : ScanState} {c : Char} {token : Option Token} {t : Text} {k : List Token}

private theorem yields_opened
    (h : ScanState.opened.step c = .next r token) (hy : Yields r t k) :
    Yields .opened (c :: t) (token.toList ++ k) := by
  simp only [step, go] at h
  split at h
  · next hc =>
    cases h
    obtain ⟨x, n, a, rfl, rfl⟩ := hy
    exact ⟨runCons hc x, n, a, rfl, rfl⟩
  · split at h
    · next hc =>
      cases h
      obtain ⟨x, a, rfl, rfl⟩ := hy
      exact ⟨⟨[], rfl⟩, ⟨c, x, hc⟩, a, rfl, rfl⟩
    · cases h

private theorem yields_key {n : Text}
    (h : (ScanState.key n).step c = .next r token) (hy : Yields r t k) :
    Yields (.key n) (c :: t) (token.toList ++ k) := by
  simp only [step, go, emit] at h
  split at h
  · next hc =>
    cases h
    obtain ⟨x, a, rfl, rfl⟩ := hy
    exact ⟨runCons hc x, a, rfl, by simp [runCons]⟩
  · split at h
    · next hc =>
      subst hc
      cases h
      obtain ⟨l, x, e, rfl, rfl⟩ := hy
      refine ⟨⟨[], rfl⟩, .parameter (some (l, x)) e, ?_, ?_⟩
      · simp [Rest.text, defaultText]
      · simp [Rest.tokens, defaultTokens]
    · split at h
      · next hc =>
        subst hc
        cases h
        obtain ⟨a, e, rfl, rfl⟩ := hy
        exact ⟨⟨[], rfl⟩, .helper a e, rfl, by simp [Rest.tokens]⟩
      · obtain ⟨e, he, hk⟩ := yields_afterPart h hy
        exact ⟨⟨[], rfl⟩, .parameter none e, he, by rw [hk]; simp [Rest.tokens, defaultTokens]⟩

private theorem yields_defaultOpened
    (h : ScanState.defaultOpened.step c = .next r token) (hy : Yields r t k) :
    Yields .defaultOpened (c :: t) (token.toList ++ k) := by
  simp only [step, go] at h
  split at h
  · next hc =>
    subst hc
    cases h
    obtain ⟨u, x, e, hu, rfl, rfl⟩ := hy
    obtain ⟨l, rfl⟩ := literal_of_closes hu
    exact ⟨l, x, e, by simp [Literal.text], rfl⟩
  · cases h

private theorem yields_default {literal : Quoted}
    (h : (ScanState.default literal).step c = .next r token) (hy : Yields r t k) :
    Yields (.default literal) (c :: t) (token.toList ++ k) := by
  simp only [step, go, emit] at h
  split at h
  · next text hpush =>
    cases h
    obtain ⟨rfl, hescaped, rfl⟩ := Quoted.push_text hpush
    obtain ⟨x, e, rfl, rfl⟩ := hy
    exact ⟨[], x, e, hescaped, rfl, by simp⟩
  · next m hpush =>
    cases h
    obtain ⟨u, x, e, hu, rfl, rfl⟩ := hy
    obtain ⟨hraw, hcloses⟩ := Quoted.push_longer hpush hu
    exact ⟨c :: u, x, e, hcloses, rfl, by rw [hraw]; rfl⟩

private theorem yields_defaultClosed
    (h : ScanState.defaultClosed.step c = .next r token) (hy : Yields r t k) :
    Yields .defaultClosed (c :: t) (token.toList ++ k) := by
  simp only [step, go] at h
  split at h
  · next hc =>
    cases h
    obtain ⟨x, e, rfl, rfl⟩ := hy
    exact ⟨runCons (beq_iff_eq.mpr hc) x, e, rfl, rfl⟩
  · obtain ⟨e, he, hk⟩ := yields_afterPart h hy
    exact ⟨⟨[], rfl⟩, e, he, hk⟩

private theorem yields_filter_nil
    (h : (ScanState.filter []).step c = .next r token) (hy : Yields r t k) :
    Yields (.filter []) (c :: t) (token.toList ++ k) := by
  simp only [step, go] at h
  split at h
  · next hc =>
    cases h
    obtain ⟨x, a, e, rfl, rfl⟩ := hy
    exact ⟨⟨⟨c, x, hc⟩, a⟩, e, rfl, rfl⟩
  · cases h

private theorem yields_filter_cons {d : Char} {n : Text}
    (h : (ScanState.filter (d :: n)).step c = .next r token) (hy : Yields r t k) :
    Yields (.filter (d :: n)) (c :: t) (token.toList ++ k) := by
  simp only [step, go, emit] at h
  split at h
  · next hc =>
    cases h
    obtain ⟨x, a, e, rfl, rfl⟩ := hy
    exact ⟨runCons hc x, a, e, rfl, by simp [runCons]⟩
  · split at h
    · next hc =>
      subst hc
      cases h
      obtain ⟨a, e, rfl, rfl⟩ := hy
      exact ⟨⟨[], rfl⟩, some a, e, rfl, by simp [callTokens]⟩
    · obtain ⟨e, he, hk⟩ := yields_afterPart h hy
      exact ⟨⟨[], rfl⟩, none, e, he, by rw [hk]; simp [callTokens]⟩

private theorem yields_argumentsOpened
    (h : ScanState.argumentsOpened.step c = .next r token) (hy : Yields r t k) :
    Yields .argumentsOpened (c :: t) (token.toList ++ k) := by
  simp only [step, go] at h
  split at h
  · next hc =>
    cases h
    obtain ⟨a, e, rfl, rfl⟩ := hy
    obtain ⟨as, htext, htokens⟩ := args_blank hc a
    exact ⟨as, e, by rw [htext]; rfl, by rw [htokens]; rfl⟩
  · split at h
    · next hc =>
      subst hc
      cases h
      obtain ⟨u, x, a, e, hu, rfl, rfl⟩ := hy
      obtain ⟨l, rfl⟩ := literal_of_closes hu
      obtain ⟨as, htext, htokens⟩ := args_of_arg ⟨[], rfl⟩ (.quoted l) x a
      refine ⟨as, e, ?_, ?_⟩
      · rw [htext]; simp [Arg.text, Literal.text]
      · rw [htokens]; rfl
    · split at h
      · next hc =>
        cases h
        obtain ⟨y, f, x, a, e, _, rfl, rfl⟩ := hy
        obtain ⟨as, htext, htokens⟩ := args_of_arg ⟨[], rfl⟩ (.number c hc y f) x a
        refine ⟨as, e, ?_, ?_⟩
        · rw [htext]; simp [Arg.text]
        · rw [htokens]; rfl
      · split at h
        · next hc =>
          cases h
          obtain ⟨y, x, a, e, rfl, rfl⟩ := hy
          obtain ⟨as, htext, htokens⟩ := args_of_arg ⟨[], rfl⟩ (.name ⟨c, y, hc⟩) x a
          refine ⟨as, e, ?_, ?_⟩
          · rw [htext]; simp [Arg.text, Name.text]
          · rw [htokens]; rfl
        · split at h
          · next hc =>
            subst hc
            cases h
            obtain ⟨e, rfl, rfl⟩ := hy
            exact ⟨.close ⟨[], rfl⟩, e, rfl, rfl⟩
          · cases h

private theorem yields_string {literal : Quoted}
    (h : (ScanState.string literal).step c = .next r token) (hy : Yields r t k) :
    Yields (.string literal) (c :: t) (token.toList ++ k) := by
  simp only [step, go, emit] at h
  split at h
  · next text hpush =>
    cases h
    obtain ⟨rfl, hescaped, rfl⟩ := Quoted.push_text hpush
    obtain ⟨x, a, e, rfl, rfl⟩ := hy
    exact ⟨[], x, a, e, hescaped, rfl, by simp⟩
  · next m hpush =>
    cases h
    obtain ⟨u, x, a, e, hu, rfl, rfl⟩ := hy
    obtain ⟨hraw, hcloses⟩ := Quoted.push_longer hpush hu
    exact ⟨c :: u, x, a, e, hcloses, rfl, by rw [hraw]; rfl⟩

private theorem yields_number {n : Text}
    (h : (ScanState.number n).step c = .next r token) (hy : Yields r t k) :
    Yields (.number n) (c :: t) (token.toList ++ k) := by
  simp only [step, go] at h
  split at h
  · next hc =>
    cases h
    obtain ⟨y, f, x, a, e, hf, rfl, rfl⟩ := hy
    rcases hc with hc | ⟨rfl, hdot⟩
    · refine ⟨runCons hc y, f, x, a, e, fun hsome hn => ?_, rfl, by simp [runCons]⟩
      exact hf hsome (List.mem_append_left _ hn)
    · -- The number has its dot now, so that the rest has none.
      have hnone : f = none := by
        cases f with
        | none => rfl
        | some f => exact absurd (List.mem_append_right n (List.mem_singleton.mpr rfl)) (hf rfl)
      subst hnone
      exact ⟨⟨[], rfl⟩, some y, x, a, e, fun _ => hdot, rfl, by simp [fractionText]⟩
  · obtain ⟨x, a, e, ht, hk⟩ := yields_afterWord h hy
    exact ⟨⟨[], rfl⟩, none, x, a, e, fun hsome => absurd hsome Bool.false_ne_true, ht,
      by rw [hk]; simp [fractionText]⟩

private theorem yields_variable {n : Text}
    (h : (ScanState.variable n).step c = .next r token) (hy : Yields r t k) :
    Yields (.variable n) (c :: t) (token.toList ++ k) := by
  simp only [step, go] at h
  split at h
  · next hc =>
    cases h
    obtain ⟨y, x, a, e, rfl, rfl⟩ := hy
    exact ⟨runCons hc y, x, a, e, rfl, by simp [runCons]⟩
  · obtain ⟨x, a, e, ht, hk⟩ := yields_afterWord h hy
    exact ⟨⟨[], rfl⟩, x, a, e, ht, by rw [hk]; simp⟩

private theorem yields_argumentClosed
    (h : ScanState.argumentClosed.step c = .next r token) (hy : Yields r t k) :
    Yields .argumentClosed (c :: t) (token.toList ++ k) := by
  simp only [step, go] at h
  split at h
  · next hc =>
    cases h
    obtain ⟨x, a, e, rfl, rfl⟩ := hy
    exact ⟨runCons hc x, a, e, rfl, rfl⟩
  · split at h
    · next hc =>
      subst hc
      cases h
      obtain ⟨a, e, rfl, rfl⟩ := hy
      exact ⟨⟨[], rfl⟩, some a, e, rfl, rfl⟩
    · split at h
      · next hc =>
        subst hc
        cases h
        obtain ⟨e, rfl, rfl⟩ := hy
        exact ⟨⟨[], rfl⟩, none, e, rfl, rfl⟩
      · cases h

private theorem yields_closing {question : Bool}
    (h : (ScanState.closing question).step c = .next r token) (hy : Yields r t k) :
    Yields (.closing question) (c :: t) (token.toList ++ k) := by
  simp only [step, go] at h
  split at h
  · cases h
  · split at h
    · next hc =>
      subst hc
      cases h
      obtain ⟨rfl, ⟨x, rfl⟩ | ⟨_, rfl⟩⟩ := hy
      · exact ⟨rfl, .inl ⟨runCons rfl x, rfl⟩⟩
      · exact ⟨rfl, .inl ⟨⟨[], rfl⟩, rfl⟩⟩
    · split at h
      · next hc =>
        cases h
        obtain ⟨rfl, ⟨x, rfl⟩ | ⟨hfalse, _⟩⟩ := hy
        · exact ⟨rfl, .inl ⟨runCons (by simp [hc]) x, rfl⟩⟩
        · cases hfalse
      · cases h

/-- Reading a character leaves the rest of what the state was in the middle of. -/
theorem yields_next (h : q.step c = .next r token) (hy : Yields r t k) :
    Yields q (c :: t) (token.toList ++ k) := by
  cases q with
  | content brace => trivial
  | opened => exact yields_opened h hy
  | key n => exact yields_key h hy
  | defaultOpened => exact yields_defaultOpened h hy
  | default literal => exact yields_default h hy
  | defaultClosed => exact yields_defaultClosed h hy
  | filter name => cases name with
    | nil => exact yields_filter_nil h hy
    | cons d n => exact yields_filter_cons h hy
  | argumentsOpened => exact yields_argumentsOpened h hy
  | string literal => exact yields_string h hy
  | number n => exact yields_number h hy
  | «variable» n => exact yields_variable h hy
  | argumentClosed => exact yields_argumentClosed h hy
  | argumentsClosed => exact yields_afterPart h hy
  | closing question => exact yields_closing h hy

theorem step_close (h : q.step c = .close) :
    q = .closing true ∧ c = '}' := by
  have part {t : Option Token} : afterPart c t ≠ .close := by
    unfold afterPart
    grind
  have word {a : Argument} : afterWord c a ≠ .close := by
    unfold afterWord emit
    grind
  cases q with
  | filter name => cases name <;> simp only [step, go, emit] at h <;> grind
  | _ => simp only [step, go, emit] at h; grind

/-- A text that closes the tag is one of those the grammar has for the state. -/
theorem yields_of_finish? (h : q.finish? t = some k) : Yields q t k := by
  induction t generalizing q k with
  | nil => cases h
  | cons c t ih =>
    rw [finish?] at h
    cases hstep : q.step c with
    | next r token =>
      rw [hstep] at h
      obtain ⟨rest, hrest, rfl⟩ := Option.map_eq_some_iff.mp h
      exact yields_next hstep (ih hrest)
    | close =>
      obtain ⟨rfl, rfl⟩ := step_close hstep
      by_cases ht : t = []
      · subst ht
        cases h
        exact ⟨rfl, .inr ⟨rfl, rfl⟩⟩
      · simp [hstep, ht] at h
    | abandon => rw [hstep] at h; cases h

end ScanState

namespace Tag

theorem isWhole_derived (d : Grammar.Tag) :
    IsWhole d.text ⟨d.tokens, d.text, 0, Text.bytes d.text⟩ :=
  isWhole_iff.mpr ⟨_, _, rfl, ScanState.finish?_derived d, rfl⟩

theorem derived_of_isWhole {s : Text} {tag : Tag} (h : IsWhole s tag) :
    ∃ d : Grammar.Tag, d.text = s := by
  obtain ⟨rest, tokens, rfl, hrest, _⟩ := isWhole_iff.mp h
  obtain ⟨x, n, a, rfl, _⟩ := ScanState.yields_of_finish? hrest
  exact ⟨⟨x, n, a⟩, rfl⟩

/-- A text is read as one whole tag if and only if it has a derivation, the tokens are those of
the derivation, there is no second one, and no text of the grammar is continued to another. -/
theorem whole_iff_derived :
    (∀ s : Text, (∃ tag, IsWhole s tag) ↔ ∃ d : Grammar.Tag, d.text = s) ∧
    (∀ d : Grammar.Tag, scan d.text = [⟨d.tokens, d.text, 0, Text.bytes d.text⟩]) ∧
    Function.Injective Grammar.Tag.text ∧
    (∀ d e : Grammar.Tag, d.text <+: e.text ↔ d.text = e.text) := by
  refine ⟨fun s => ⟨?_, ?_⟩, fun d => (isWhole_derived d).1, fun d e h => ?_,
    fun d e => ⟨?_, ?_⟩⟩
  · rintro ⟨tag, h⟩
    exact derived_of_isWhole h
  · rintro ⟨d, rfl⟩
    exact ⟨_, isWhole_derived d⟩
  · have happ : d.text ++ [] = e.text ++ [] := by rw [h]
    exact (Grammar.Tag.append_inj happ).1
  · rintro ⟨r, h⟩
    have happ : d.text ++ r = e.text ++ [] := by rw [h, List.append_nil]
    rw [(Grammar.Tag.append_inj happ).1]
  · intro h
    exact ⟨[], by rw [h, List.append_nil]⟩

end Tag

end Scaffold
