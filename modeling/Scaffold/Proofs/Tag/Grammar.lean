import Mathlib
import Scaffold.Tag.Scanner

/-!
The grammar of tags. A value of one of these types is a derivation, `text` what it derives and
`tokens` what the text stands for. Main statement: the text of a tag has one derivation only, also
when something else follows it (`Tag.append_inj`).
-/

namespace Scaffold

namespace Grammar

/-- Any number of characters of one kind. -/
abbrev Run (p : Char → Bool) := { t : Text // t.all p = true }

abbrev Blanks := Run Text.isBlank

structure Name where
  head : Char
  tail : Run isNameChar
  head_start : isNameStart head = true

/-- What stands between two quotes: a quote in it follows a backslash, and the closing quote
does not. -/
structure Literal where
  body : Text
  quotes_escaped : ∀ before after, body = before ++ '"' :: after → before.getLast? = some '\\'
  not_escaping : body.getLast? ≠ some '\\'

inductive Arg where
  | quoted (literal : Literal)
  | number (head : Char) (isDigit : head.isDigit = true) (tail : Run Char.isDigit)
    (fraction : Option (Run Char.isDigit))
  | name (name : Name)

/-- The arguments of a call from behind its opening parenthesis to its closing one. A comma may
stand in front of the latter. -/
inductive Args where
  | close (blanks : Blanks)
  | last (blanks : Blanks) (arg : Arg) (after : Blanks)
  | more (blanks : Blanks) (arg : Arg) (after : Blanks) (rest : Args)

/-- What may stand in front of the question mark and the brace that end a tag. -/
abbrev Marks := Run fun c => Text.isBlank c || c == '?'

structure FilterPart where
  name : Name
  args : Option Args

/-- The filters of a tag and its end. -/
structure Ending where
  filters : List FilterPart
  marks : Marks

/-- What follows the key of a tag. -/
inductive Rest where
  | parameter (default : Option (Literal × Run (· == ']'))) (ending : Ending)
  | helper (args : Args) (ending : Ending)

structure Tag where
  blanks : Blanks
  name : Name
  rest : Rest

def Name.text (n : Name) : Text := n.head :: n.tail.1

def Literal.text (l : Literal) : Text := '"' :: (l.body ++ ['"'])

def fractionText : Option (Run Char.isDigit) → Text
  | none => []
  | some digits => '.' :: digits.1

def Arg.text : Arg → Text
  | .quoted literal => literal.text
  | .number head _ tail fraction => head :: (tail.1 ++ fractionText fraction)
  | .name n => n.text

def Arg.argument : Arg → Argument
  | .quoted literal => .string (Quoted.unescape literal.body)
  | .number head _ tail fraction => .number (head :: (tail.1 ++ fractionText fraction))
  | .name n => .variable n.text

def Args.text : Args → Text
  | .close blanks => blanks.1 ++ [')']
  | .last blanks arg after => blanks.1 ++ (arg.text ++ (after.1 ++ [')']))
  | .more blanks arg after rest => blanks.1 ++ (arg.text ++ (after.1 ++ ',' :: rest.text))

def Args.tokens : Args → List Token
  | .close _ => []
  | .last _ arg _ => [.argument arg.argument]
  | .more _ arg _ rest => .argument arg.argument :: rest.tokens

/-- A call without arguments in parentheses has no text at all. -/
def callText : Option Args → Text
  | none => []
  | some args => '(' :: args.text

def callTokens : Option Args → List Token
  | none => []
  | some args => args.tokens

def FilterPart.text (f : FilterPart) : Text := '.' :: (f.name.text ++ callText f.args)

def FilterPart.tokens (f : FilterPart) : List Token := .filter f.name.text :: callTokens f.args

def Ending.text (e : Ending) : Text := e.filters.flatMap FilterPart.text ++ (e.marks.1 ++ ['?', '}'])

def Ending.tokens (e : Ending) : List Token := e.filters.flatMap FilterPart.tokens ++ [.closing]

def defaultText : Option (Literal × Run (· == ']')) → Text
  | none => []
  | some (literal, brackets) => '[' :: (literal.text ++ brackets.1)

def defaultTokens : Option (Literal × Run (· == ']')) → List Token
  | none => []
  | some (literal, _) => [.default (Quoted.unescape literal.body)]

def Rest.text : Rest → Text
  | .parameter default ending => defaultText default ++ ending.text
  | .helper args ending => '(' :: (args.text ++ ending.text)

def Rest.tokens (key : Text) : Rest → List Token
  | .parameter default ending => .key .parameter key :: (defaultTokens default ++ ending.tokens)
  | .helper args ending => .key .helper key :: (args.tokens ++ ending.tokens)

namespace Tag

def text (d : Tag) : Text := '{' :: '?' :: (d.blanks.1 ++ (d.name.text ++ d.rest.text))

def tokens (d : Tag) : List Token := .opening :: d.rest.tokens d.name.text

end Tag

/-! ## One derivation for each text -/

/-- The text is empty or starts with a character of another kind. -/
def Stops (p : Char → Bool) (t : Text) : Prop := ∀ c ∈ t.head?, p c = false

theorem stops_cons {p : Char → Bool} {c : Char} {t : Text} (h : p c = false) : Stops p (c :: t) := by
  intro d hd
  obtain rfl : c = d := by simpa using hd
  exact h

theorem run_append_inj {p : Char → Bool} {a b : Run p} {r s : Text} (h : a.1 ++ r = b.1 ++ s)
    (hr : Stops p r) (hs : Stops p s) : a = b ∧ r = s := by
  have htake (x : Run p) {t : Text} (ht : Stops p t) : (x.1 ++ t).takeWhile p = x.1 := by
    have hnil : t.takeWhile p = [] := by
      cases t with
      | nil => rfl
      | cons c t => rw [List.takeWhile_cons, ht c rfl]; rfl
    rw [List.takeWhile_append_of_pos (List.all_eq_true.mp x.2), hnil, List.append_nil]
  have hab : a.1 = b.1 := by rw [← htake a hr, h, htake b hs]
  obtain rfl : a = b := Subtype.ext hab
  exact ⟨rfl, List.append_cancel_left h⟩

theorem stops_run_append {p q : Char → Bool} (a : Run p) {t : Text}
    (hpq : ∀ c, p c = true → q c = false) (ht : Stops q t) : Stops q (a.1 ++ t) := by
  obtain ⟨a, ha⟩ := a
  cases a with
  | nil => exact ht
  | cons c a => exact stops_cons (hpq c (List.all_eq_true.mp ha c (List.mem_cons_self ..)))

theorem blank_range {c : Char} (h : Text.isBlank c = true) : c.toNat ≤ 32 ∨ 133 ≤ c.toNat := by
  simp only [Text.isBlank, Bool.or_eq_true, Bool.and_eq_true, decide_eq_true_eq, beq_iff_eq] at h
  omega

theorem nameChar_range {c : Char} (h : isNameChar c = true) : 45 ≤ c.toNat ∧ c.toNat ≤ 122 := by
  simp only [isNameChar, Char.isAlphanum, Char.isAlpha, Char.isUpper, Char.isLower, Char.isDigit,
    Bool.or_eq_true, Bool.and_eq_true, decide_eq_true_eq, beq_iff_eq, ge_iff_le,
    UInt32.le_iff_toNat_le] at h
  rcases h with ((h | h) | rfl) | rfl <;> try decide
  · simp at h; omega
  · simp at h; omega

theorem nameChar_of_start {c : Char} (h : isNameStart c = true) : isNameChar c = true := by
  unfold isNameStart at h
  simp [isNameChar, Char.isAlphanum, h]

theorem nameChar_of_digit {c : Char} (h : c.isDigit = true) : isNameChar c = true := by
  simp [isNameChar, Char.isAlphanum, h]

theorem start_not_digit {c : Char} (h : isNameStart c = true) : c.isDigit = false := by
  simp only [isNameStart, Char.isAlpha, Char.isUpper, Char.isLower, Bool.or_eq_true,
    Bool.and_eq_true, decide_eq_true_eq, ge_iff_le, UInt32.le_iff_toNat_le] at h
  simp only [Char.isDigit, Bool.and_eq_false_iff, decide_eq_false_iff_not, ge_iff_le,
    UInt32.le_iff_toNat_le]
  simp at h ⊢
  omega

theorem blank_not_nameChar {c : Char} (h : Text.isBlank c = true) : isNameChar c = false := by
  have hb := blank_range h
  refine Bool.eq_false_iff.mpr fun hc => ?_
  have hn := nameChar_range hc
  omega

theorem nameChar_not_blank {c : Char} (h : isNameChar c = true) : Text.isBlank c = false := by
  refine Bool.eq_false_iff.mpr fun hb => ?_
  rw [blank_not_nameChar hb] at h
  cases h

theorem blank_ne {c d : Char} (h : Text.isBlank c = true) (hd : Text.isBlank d = false) :
    (c == d) = false := by
  refine beq_eq_false_iff_ne.mpr fun he => ?_
  rw [he, hd] at h
  cases h

theorem Name.append_inj {a b : Name} {r s : Text} (h : a.text ++ r = b.text ++ s)
    (hr : Stops isNameChar r) (hs : Stops isNameChar s) : a = b ∧ r = s := by
  obtain ⟨c, a, ha⟩ := a
  obtain ⟨d, b, hb⟩ := b
  obtain ⟨rfl, ht⟩ := List.cons.inj h
  obtain ⟨rfl, rfl⟩ := run_append_inj ht hr hs
  exact ⟨rfl, rfl⟩

/-- The body of a literal is not continued by its closing quote. -/
private theorem body_unextended {a b : Literal} {m r s : Text} (hb : b.body = a.body ++ m)
    (h : '"' :: r = m ++ '"' :: s) : m = [] := by
  cases m with
  | nil => rfl
  | cons c m =>
    obtain ⟨rfl, _⟩ := List.cons.inj h
    exact absurd (b.quotes_escaped a.body m hb) a.not_escaping

theorem Literal.append_inj {a b : Literal} {r s : Text} (h : a.text ++ r = b.text ++ s) :
    a = b ∧ r = s := by
  have hbody : a.body ++ '"' :: r = b.body ++ '"' :: s := by simpa [Literal.text] using h
  have hab : a.body = b.body := by
    rcases List.append_eq_append_iff.mp hbody with ⟨m, hb, hm⟩ | ⟨m, ha, hm⟩
    · rw [hb, body_unextended hb hm, List.append_nil]
    · rw [ha, body_unextended ha hm, List.append_nil]
  obtain ⟨a, _, _⟩ := a
  obtain ⟨b, _, _⟩ := b
  obtain rfl : a = b := hab
  exact ⟨rfl, (List.cons.inj (List.append_cancel_left hbody)).2⟩

/-- What may follow an argument does not lengthen it. -/
def AfterArg (t : Text) : Prop := Stops isNameChar t ∧ Stops (· == '.') t

theorem AfterArg.stops_digit {t : Text} (h : AfterArg t) : Stops Char.isDigit t := by
  intro c hc
  refine Bool.eq_false_iff.mpr fun hd => ?_
  have hn := h.1 c hc
  rw [nameChar_of_digit hd] at hn
  cases hn

theorem afterArg_blanks (blanks : Blanks) {c : Char} {t : Text} (hn : isNameChar c = false)
    (hc : (c == '.') = false) : AfterArg (blanks.1 ++ c :: t) :=
  ⟨stops_run_append _ (fun _ => blank_not_nameChar) (stops_cons hn),
    stops_run_append _ (fun _ h => blank_ne h rfl) (stops_cons hc)⟩

theorem fraction_append_inj {a b : Option (Run Char.isDigit)} {r s : Text}
    (h : fractionText a ++ r = fractionText b ++ s) (hr : AfterArg r) (hs : AfterArg s) :
    a = b ∧ r = s := by
  cases a with
  | none => cases b with
    | none => exact ⟨rfl, h⟩
    | some b =>
      have hdot := hr.2
      rw [show r = '.' :: (b.1 ++ s) from h] at hdot
      exact absurd (hdot '.' rfl) (by decide)
  | some a => cases b with
    | none =>
      have hdot := hs.2
      rw [show s = '.' :: (a.1 ++ r) from h.symm] at hdot
      exact absurd (hdot '.' rfl) (by decide)
    | some b =>
      obtain ⟨rfl, rfl⟩ :=
        run_append_inj (List.cons.inj h).2 hr.stops_digit hs.stops_digit
      exact ⟨rfl, rfl⟩

theorem stops_fraction (a : Option (Run Char.isDigit)) {r : Text} (hr : AfterArg r) :
    Stops Char.isDigit (fractionText a ++ r) := by
  cases a with
  | none => exact hr.stops_digit
  | some a => exact stops_cons rfl

theorem Arg.append_inj {a b : Arg} {r s : Text} (h : a.text ++ r = b.text ++ s)
    (hr : AfterArg r) (hs : AfterArg s) : a = b ∧ r = s := by
  cases a with
  | quoted a => cases b with
    | quoted b =>
      obtain ⟨rfl, rfl⟩ := Literal.append_inj h
      exact ⟨rfl, rfl⟩
    | number c hc _ _ =>
      obtain ⟨rfl, _⟩ := List.cons.inj h
      cases hc
    | name n =>
      have hc := n.head_start
      rw [← (List.cons.inj h).1] at hc
      cases hc
  | number c hc a f => cases b with
    | quoted b =>
      obtain ⟨rfl, _⟩ := List.cons.inj h
      cases hc
    | number d hd b g =>
      obtain ⟨rfl, ht⟩ := List.cons.inj h
      change a.1 ++ fractionText f ++ r = b.1 ++ fractionText g ++ s at ht
      rw [List.append_assoc, List.append_assoc] at ht
      obtain ⟨rfl, hf⟩ := run_append_inj ht (stops_fraction f hr) (stops_fraction g hs)
      obtain ⟨rfl, rfl⟩ := fraction_append_inj hf hr hs
      exact ⟨rfl, rfl⟩
    | name n =>
      have hd := start_not_digit n.head_start
      rw [← (List.cons.inj h).1, hc] at hd
      cases hd
  | name n => cases b with
    | quoted b =>
      have hc := n.head_start
      rw [(List.cons.inj h).1] at hc
      cases hc
    | number c hc _ _ =>
      have hd := start_not_digit n.head_start
      rw [(List.cons.inj h).1, hc] at hd
      cases hd
    | name m =>
      obtain ⟨rfl, rfl⟩ := Name.append_inj h hr.1 hs.1
      exact ⟨rfl, rfl⟩

theorem Arg.head (a : Arg) : ∃ c t, a.text = c :: t ∧ (c = '"' ∨ isNameChar c = true) := by
  cases a with
  | quoted a => exact ⟨_, _, rfl, .inl rfl⟩
  | number c hc _ _ => exact ⟨_, _, rfl, .inr (nameChar_of_digit hc)⟩
  | name n => exact ⟨_, _, rfl, .inr (nameChar_of_start n.head_start)⟩

theorem Arg.stops_blank (a : Arg) (r : Text) : Stops Text.isBlank (a.text ++ r) := by
  obtain ⟨c, t, ha, hc⟩ := a.head
  rw [ha]
  refine stops_cons ?_
  rcases hc with rfl | hc
  · rfl
  · exact nameChar_not_blank hc

theorem Arg.not_parenthesis (a : Arg) {r s : Text} : a.text ++ r ≠ ')' :: s := by
  intro h
  obtain ⟨c, t, ha, hc⟩ := a.head
  rw [ha] at h
  obtain ⟨rfl, _⟩ := List.cons.inj h
  rcases hc with hc | hc
  · cases hc
  · cases hc

/-- An argument with its blanks and the character that ends it. -/
theorem arg_blanks_append_inj {a b : Arg} {x y : Blanks} {c d : Char} {r s : Text}
    (h : a.text ++ (x.1 ++ c :: r) = b.text ++ (y.1 ++ d :: s)) (hc : c = ')' ∨ c = ',')
    (hd : d = ')' ∨ d = ',') : a = b ∧ x = y ∧ c = d ∧ r = s := by
  have stop {c : Char} (hc : c = ')' ∨ c = ',') :
      isNameChar c = false ∧ (c == '.') = false ∧ Text.isBlank c = false := by
    rcases hc with rfl | rfl <;> exact ⟨rfl, rfl, rfl⟩
  obtain ⟨hcn, hcp, hcb⟩ := stop hc
  obtain ⟨hdn, hdp, hdb⟩ := stop hd
  obtain ⟨rfl, hblanks⟩ := Arg.append_inj h (afterArg_blanks x hcn hcp) (afterArg_blanks y hdn hdp)
  obtain ⟨rfl, hend⟩ := run_append_inj hblanks (stops_cons hcb) (stops_cons hdb)
  obtain ⟨rfl, rfl⟩ := List.cons.inj hend
  exact ⟨rfl, rfl, rfl, rfl⟩

theorem Args.text_close (x : Blanks) (r : Text) :
    (Args.close x).text ++ r = x.1 ++ ')' :: r := by
  simp [Args.text]

theorem Args.text_last (x : Blanks) (a : Arg) (y : Blanks) (r : Text) :
    (Args.last x a y).text ++ r = x.1 ++ (a.text ++ (y.1 ++ ')' :: r)) := by
  simp [Args.text]

theorem Args.text_more (x : Blanks) (a : Arg) (y : Blanks) (as : Args) (r : Text) :
    (Args.more x a y as).text ++ r = x.1 ++ (a.text ++ (y.1 ++ ',' :: (as.text ++ r))) := by
  simp [Args.text]

theorem blanks_parenthesis_ne_arg {x y : Blanks} {a : Arg} {r s : Text} :
    x.1 ++ ')' :: r ≠ y.1 ++ (a.text ++ s) := by
  intro h
  obtain ⟨_, hend⟩ := run_append_inj h (stops_cons rfl) (a.stops_blank _)
  exact a.not_parenthesis hend.symm

theorem Args.append_inj {a b : Args} {r s : Text} (h : a.text ++ r = b.text ++ s) :
    a = b ∧ r = s := by
  induction a generalizing b with
  | close x => cases b with
    | close y =>
      rw [text_close, text_close] at h
      obtain ⟨rfl, hend⟩ := run_append_inj h (stops_cons rfl) (stops_cons rfl)
      exact ⟨rfl, (List.cons.inj hend).2⟩
    | last y b y' =>
      rw [text_close, text_last] at h
      exact absurd h blanks_parenthesis_ne_arg
    | more y b y' bs =>
      rw [text_close, text_more] at h
      exact absurd h blanks_parenthesis_ne_arg
  | last x a x' => cases b with
    | close y =>
      rw [text_close, text_last] at h
      exact absurd h.symm blanks_parenthesis_ne_arg
    | last y b y' =>
      rw [text_last, text_last] at h
      obtain ⟨rfl, harg⟩ := run_append_inj h (a.stops_blank _) (b.stops_blank _)
      obtain ⟨rfl, rfl, _, rfl⟩ := arg_blanks_append_inj harg (.inl rfl) (.inl rfl)
      exact ⟨rfl, rfl⟩
    | more y b y' bs =>
      rw [text_last, text_more] at h
      obtain ⟨_, harg⟩ := run_append_inj h (a.stops_blank _) (b.stops_blank _)
      obtain ⟨_, _, hc, _⟩ := arg_blanks_append_inj harg (.inl rfl) (.inr rfl)
      cases hc
  | more x a x' as ih => cases b with
    | close y =>
      rw [text_close, text_more] at h
      exact absurd h.symm blanks_parenthesis_ne_arg
    | last y b y' =>
      rw [text_last, text_more] at h
      obtain ⟨_, harg⟩ := run_append_inj h (a.stops_blank _) (b.stops_blank _)
      obtain ⟨_, _, hc, _⟩ := arg_blanks_append_inj harg (.inr rfl) (.inl rfl)
      cases hc
    | more y b y' bs =>
      rw [text_more, text_more] at h
      obtain ⟨rfl, harg⟩ := run_append_inj h (a.stops_blank _) (b.stops_blank _)
      obtain ⟨rfl, rfl, _, hrest⟩ := arg_blanks_append_inj harg (.inr rfl) (.inr rfl)
      obtain ⟨rfl, rfl⟩ := ih hrest
      exact ⟨rfl, rfl⟩

theorem call_append_inj {a b : Option Args} {r s : Text} (h : callText a ++ r = callText b ++ s)
    (hr : Stops (· == '(') r) (hs : Stops (· == '(') s) : a = b ∧ r = s := by
  cases a with
  | none => cases b with
    | none => exact ⟨rfl, h⟩
    | some b =>
      rw [show r = '(' :: (b.text ++ s) from h] at hr
      exact absurd (hr '(' rfl) (by decide)
  | some a => cases b with
    | none =>
      rw [show s = '(' :: (a.text ++ r) from h.symm] at hs
      exact absurd (hs '(' rfl) (by decide)
    | some b =>
      obtain ⟨rfl, rfl⟩ := Args.append_inj (List.cons.inj h).2
      exact ⟨rfl, rfl⟩

/-- What follows a key, a default, a filter or a call starts with a dot, a blank or a question
mark. -/
theorem Ending.stops (e : Ending) {p : Char → Bool} (r : Text) (hdot : p '.' = false)
    (hquestion : p '?' = false) (hblank : ∀ c, Text.isBlank c = true → p c = false) :
    Stops p (e.text ++ r) := by
  obtain ⟨filters, marks⟩ := e
  cases filters with
  | cons f filters => exact stops_cons hdot
  | nil =>
    simp only [Ending.text, List.flatMap_nil, List.nil_append, List.append_assoc]
    refine stops_run_append marks (fun c hc => ?_) (stops_cons hquestion)
    rcases Bool.or_eq_true_iff.mp hc with hc | hc
    · exact hblank c hc
    · rw [eq_of_beq hc]; exact hquestion

theorem Ending.stops_char (e : Ending) (r : Text) {d : Char} (hd : Text.isBlank d = false)
    (hdot : d ≠ '.') (hquestion : d ≠ '?') : Stops (· == d) (e.text ++ r) :=
  e.stops r (beq_eq_false_iff_ne.mpr hdot.symm) (beq_eq_false_iff_ne.mpr hquestion.symm)
    fun _ hc => blank_ne hc hd

theorem Ending.stops_nameChar (e : Ending) (r : Text) : Stops isNameChar (e.text ++ r) :=
  e.stops r rfl rfl fun _ => blank_not_nameChar

theorem Ending.stops_call (e : Ending) (a : Option Args) (r : Text) :
    Stops isNameChar (callText a ++ (e.text ++ r)) := by
  cases a with
  | none => exact e.stops_nameChar r
  | some a => exact stops_cons rfl

theorem marks_append_inj {x y : Marks} {r s : Text}
    (h : x.1 ++ '?' :: '}' :: r = y.1 ++ '?' :: '}' :: s) : x = y ∧ r = s := by
  -- The last question mark counts as one of the marks, so that they are cut off at the brace.
  have all (z : Marks) : (z.1 ++ ['?']).all (fun c => Text.isBlank c || c == '?') = true := by
    simp [z.2]
  have hbrace (t : Text) : Stops (fun c => Text.isBlank c || c == '?') ('}' :: t) :=
    stops_cons rfl
  obtain ⟨hxy, hend⟩ := run_append_inj (a := ⟨_, all x⟩) (b := ⟨_, all y⟩) (by simpa using h)
    (hbrace r) (hbrace s)
  obtain rfl : x = y := Subtype.ext (List.append_cancel_right (congrArg Subtype.val hxy))
  exact ⟨rfl, (List.cons.inj hend).2⟩

theorem marks_not_dot (x : Marks) {r s : Text} : x.1 ++ '?' :: r ≠ '.' :: s := by
  intro h
  have hstops : Stops (· == '.') (x.1 ++ '?' :: r) := by
    refine stops_run_append x (fun c hc => ?_) (stops_cons rfl)
    rcases Bool.or_eq_true_iff.mp hc with hc | hc
    · exact blank_ne hc rfl
    · rw [eq_of_beq hc]; rfl
  rw [h] at hstops
  exact absurd (hstops '.' rfl) (by decide)

theorem Ending.text_nil (x : Marks) (r : Text) :
    (⟨[], x⟩ : Ending).text ++ r = x.1 ++ '?' :: '}' :: r := by
  simp [Ending.text]

theorem Ending.text_cons (f : FilterPart) (fs : List FilterPart) (x : Marks) (r : Text) :
    (⟨f :: fs, x⟩ : Ending).text ++ r =
      '.' :: (f.name.text ++ (callText f.args ++ ((⟨fs, x⟩ : Ending).text ++ r))) := by
  simp [Ending.text, FilterPart.text]

theorem Ending.append_inj {a b : Ending} {r s : Text} (h : a.text ++ r = b.text ++ s) :
    a = b ∧ r = s := by
  obtain ⟨fs, x⟩ := a
  obtain ⟨gs, y⟩ := b
  induction fs generalizing gs with
  | nil => cases gs with
    | nil =>
      rw [text_nil, text_nil] at h
      obtain ⟨rfl, rfl⟩ := marks_append_inj h
      exact ⟨rfl, rfl⟩
    | cons g gs =>
      rw [text_nil, text_cons] at h
      exact absurd h (marks_not_dot x)
  | cons f fs ih => cases gs with
    | nil =>
      rw [text_nil, text_cons] at h
      exact absurd h.symm (marks_not_dot y)
    | cons g gs =>
      rw [text_cons, text_cons] at h
      obtain ⟨n, as⟩ := f
      obtain ⟨m, bs⟩ := g
      obtain ⟨rfl, hcall⟩ := Name.append_inj (List.cons.inj h).2
        (Ending.stops_call _ _ _) (Ending.stops_call _ _ _)
      obtain ⟨rfl, hrest⟩ := call_append_inj hcall
        (Ending.stops_char _ _ rfl (by decide) (by decide))
        (Ending.stops_char _ _ rfl (by decide) (by decide))
      obtain ⟨he, rfl⟩ := ih gs hrest
      obtain ⟨rfl, rfl⟩ := Ending.mk.inj he
      exact ⟨rfl, rfl⟩

theorem default_append_inj {a b : Option (Literal × Run (· == ']'))} {r s : Text}
    (h : defaultText a ++ r = defaultText b ++ s)
    (hr : Stops (· == '[') r ∧ Stops (· == ']') r)
    (hs : Stops (· == '[') s ∧ Stops (· == ']') s) : a = b ∧ r = s := by
  cases a with
  | none => cases b with
    | none => exact ⟨rfl, h⟩
    | some b =>
      have hopen := hr.1
      rw [show r = '[' :: (b.1.text ++ b.2.1 ++ s) from h] at hopen
      exact absurd (hopen '[' rfl) (by decide)
  | some a => cases b with
    | none =>
      have hopen := hs.1
      rw [show s = '[' :: (a.1.text ++ a.2.1 ++ r) from h.symm] at hopen
      exact absurd (hopen '[' rfl) (by decide)
    | some b =>
      obtain ⟨l, x⟩ := a
      obtain ⟨m, y⟩ := b
      have ht : l.text ++ (x.1 ++ r) = m.text ++ (y.1 ++ s) := by
        simpa [defaultText] using h
      obtain ⟨rfl, hx⟩ := Literal.append_inj ht
      obtain ⟨rfl, rfl⟩ := run_append_inj hx hr.2 hs.2
      exact ⟨rfl, rfl⟩

theorem Rest.append_inj {a b : Rest} {r s : Text} (h : a.text ++ r = b.text ++ s) :
    a = b ∧ r = s := by
  have brackets (e : Ending) (t : Text) :
      Stops (· == '[') (e.text ++ t) ∧ Stops (· == ']') (e.text ++ t) :=
    ⟨e.stops_char t rfl (by decide) (by decide), e.stops_char t rfl (by decide) (by decide)⟩
  have parenthesis (d : Option (Literal × Run (· == ']'))) (e : Ending) (t u : Text) :
      defaultText d ++ (e.text ++ t) ≠ '(' :: u := by
    intro hp
    have hstops : Stops (· == '(') (defaultText d ++ (e.text ++ t)) := by
      cases d with
      | none => exact e.stops_char t rfl (by decide) (by decide)
      | some d => exact stops_cons rfl
    rw [hp] at hstops
    exact absurd (hstops '(' rfl) (by decide)
  cases a with
  | parameter d e => cases b with
    | parameter d' e' =>
      simp only [Rest.text, List.append_assoc] at h
      obtain ⟨rfl, he⟩ := default_append_inj h (brackets e r) (brackets e' s)
      obtain ⟨rfl, rfl⟩ := Ending.append_inj he
      exact ⟨rfl, rfl⟩
    | helper args e' =>
      simp only [Rest.text, List.append_assoc, List.cons_append] at h
      exact absurd h (parenthesis d e r _)
  | helper args e => cases b with
    | parameter d' e' =>
      simp only [Rest.text, List.append_assoc, List.cons_append] at h
      exact absurd h.symm (parenthesis d' e' s _)
    | helper args' e' =>
      simp only [Rest.text, List.append_assoc, List.cons_append] at h
      obtain ⟨rfl, he⟩ := Args.append_inj (List.cons.inj h).2
      obtain ⟨rfl, rfl⟩ := Ending.append_inj he
      exact ⟨rfl, rfl⟩

theorem Rest.stops_nameChar (a : Rest) (r : Text) : Stops isNameChar (a.text ++ r) := by
  cases a with
  | parameter d e => cases d with
    | none => exact e.stops_nameChar r
    | some d => exact stops_cons rfl
  | helper args e => exact stops_cons rfl

theorem Tag.append_inj {a b : Tag} {r s : Text} (h : a.text ++ r = b.text ++ s) :
    a = b ∧ r = s := by
  obtain ⟨x, n, a⟩ := a
  obtain ⟨y, m, b⟩ := b
  have ht : x.1 ++ (n.text ++ (a.text ++ r)) = y.1 ++ (m.text ++ (b.text ++ s)) := by
    simpa [Tag.text] using h
  have name (k : Name) (t : Text) : Stops Text.isBlank (k.text ++ t) :=
    stops_cons (nameChar_not_blank (nameChar_of_start k.head_start))
  obtain ⟨rfl, hn⟩ := run_append_inj ht (name n _) (name m _)
  obtain ⟨rfl, hrest⟩ := Name.append_inj hn (a.stops_nameChar r) (b.stops_nameChar s)
  obtain ⟨rfl, rfl⟩ := Rest.append_inj hrest
  exact ⟨rfl, rfl⟩

end Grammar

end Scaffold
