import Scaffold.Proofs.Placeholder.Extent
import Scaffold.Proofs.Placeholder.RoundTrip

/-!
Quoted literals as a code for texts. Main statement: a text that does not end in a backslash has one
written form, which is finished by its last quote and not before, and no other text has any; so no
default and no text among the arguments of a tag ends in a backslash (`finishes_iff_escape`).
-/

namespace Scaffold

namespace Quoted

/-! ## Feeding a literal -/

/-- The last of the characters finishes the literal, and none before it does. -/
inductive Finishes : Quoted → Text → Text → Prop where
  | last {q : Quoted} {c : Char} {t : Text} (h : q.push c = .inl t) : Finishes q [c] t
  | more {q r : Quoted} {c : Char} {s t : Text} (h : q.push c = .inr r) (rest : Finishes r s t) :
    Finishes q (c :: s) t

variable {q : Quoted} {s t body : Text}

theorem finishes_of_closes (h : Grammar.Closes q.afterBackslash body) :
    Finishes q (body ++ ['"']) (unescape (q.raw ++ body)) := by
  induction body generalizing q with
  | nil =>
    refine .last (if_pos ⟨rfl, h⟩ |>.trans ?_)
    rw [List.append_nil]
  | cons c body ih =>
    have hrest := ih (q := ⟨q.raw ++ [c], c = '\\'⟩) h.2
    rw [List.append_assoc] at hrest
    exact .more (push_of_closes h) hrest

theorem Finishes.exists_body (h : Finishes q s t) :
    ∃ body, s = body ++ ['"'] ∧ Grammar.Closes q.afterBackslash body ∧
      t = unescape (q.raw ++ body) := by
  induction h with
  | last h =>
    obtain ⟨rfl, hclosed, rfl⟩ := push_text h
    exact ⟨[], rfl, hclosed, by rw [List.append_nil]⟩
  | @more q r c s t h rest ih =>
    obtain ⟨body, rfl, hcloses, rfl⟩ := ih
    obtain ⟨hraw, hcloses⟩ := push_longer h hcloses
    exact ⟨c :: body, rfl, hcloses, by rw [hraw]⟩

/-- A body is an escaped text, and so is one behind a backslash together with it. -/
theorem exists_escape {escaped : Bool} (h : Grammar.Closes escaped body) :
    ∃ t, escape t = (if escaped then ['\\'] else []) ++ body := by
  -- A backslash stays in front of the rest, which tells whether it is one of the text.
  induction body generalizing escaped with
  | nil =>
    obtain rfl : escaped = false := h
    exact ⟨[], rfl⟩
  | cons c body ih =>
    obtain ⟨hquote, hrest⟩ := h
    obtain ⟨t, ht⟩ := ih hrest
    cases escaped with
    | false =>
      have hc : c ≠ '"' := fun heq => absurd (hquote heq) (by decide)
      by_cases hslash : c = '\\'
      · subst hslash
        exact ⟨t, ht⟩
      · refine ⟨c :: t, ?_⟩
        rw [escape_cons, if_neg hc, ht]
        simp [hslash]
    | true =>
      by_cases hc : c = '"'
      · subst hc
        refine ⟨'"' :: t, ?_⟩
        rw [escape_cons, ht]
        rfl
      · by_cases hslash : c = '\\'
        · subst hslash
          refine ⟨'\\' :: t, ?_⟩
          rw [escape_cons, ht]
          rfl
        · refine ⟨'\\' :: c :: t, ?_⟩
          rw [escape_cons, escape_cons, if_neg hc, ht]
          simp [hslash]

theorem escape_unescape (h : Grammar.Closes false body) : escape (unescape body) = body := by
  obtain ⟨t, ht⟩ := exists_escape h
  rw [if_neg Bool.false_ne_true, List.nil_append] at ht
  rw [← ht, unescape_escape]

theorem finishes_empty_iff :
    Finishes empty s t ↔ isClosable t = true ∧ s = escape t ++ ['"'] := by
  constructor
  · intro h
    obtain ⟨body, rfl, hcloses, rfl⟩ := h.exists_body
    have hescape := escape_unescape hcloses
    change isClosable (unescape body) = true ∧ body ++ ['"'] = escape (unescape body) ++ ['"']
    rw [← closes_escape_iff, hescape]
    exact ⟨hcloses, rfl⟩
  · rintro ⟨hclosable, rfl⟩
    have hfinishes := finishes_of_closes (q := empty) (closes_escape_iff.mpr hclosable)
    rwa [empty, List.nil_append, unescape_escape] at hfinishes

end Quoted

/-! ## What the tokens of a tag hold -/

namespace Grammar

theorem Name.isName (n : Name) : isName n.text = true := by
  rw [text, Scaffold.isName, n.head_start, n.tail.2]
  rfl

theorem Literal.isClosable (l : Literal) : Quoted.isClosable (Quoted.unescape l.body) = true := by
  rw [← Quoted.closes_escape_iff, Quoted.escape_unescape l.closes]
  exact l.closes

theorem isNumeral_number {head : Char} (h : head.isDigit = true) (tail : Run Char.isDigit)
    (fraction : Option (Run Char.isDigit)) :
    isNumeral (head :: (tail.1 ++ fractionText fraction)) = true := by
  have hdigits (digits : Run Char.isDigit) :
      digits.1.all (fun d => d.isDigit || d == '.') = true ∧ digits.1.count '.' = 0 := by
    have hdigit := List.all_eq_true.mp digits.2
    refine ⟨List.all_eq_true.mpr fun d hd => ?_, List.count_eq_zero.mpr fun hpoint => ?_⟩
    · rw [hdigit d hd, Bool.true_or]
    · cases hdigit '.' hpoint
  obtain ⟨htail, hcount⟩ := hdigits tail
  rw [isNumeral, h, List.all_append, htail, List.count_append, hcount]
  cases fraction with
  | none => rfl
  | some digits =>
    obtain ⟨hfraction, hnone⟩ := hdigits digits
    rw [fractionText, List.all_cons, hfraction, List.count_cons_self, hnone]
    rfl

theorem Arg.isWritable (a : Arg) : a.argument.isWritable = true := by
  cases a with
  | quoted l => exact l.isClosable
  | number head h tail fraction => exact isNumeral_number h tail fraction
  | name n => exact n.isName

theorem Args.isWritable (a : Args) : ∀ arg ∈ a.arguments, arg.isWritable = true := by
  induction a with
  | close blanks => exact nofun
  | last blanks arg after =>
    intro x hx
    rw [List.mem_singleton.mp hx]
    exact arg.isWritable
  | more blanks arg after rest ih =>
    intro x hx
    rcases List.mem_cons.mp hx with rfl | hx
    · exact arg.isWritable
    · exact ih x hx

theorem isWritable_callArguments (args : Option Args) :
    ∀ arg ∈ callArguments args, arg.isWritable = true := by
  cases args with
  | none => exact nofun
  | some args => exact args.isWritable

theorem isClosable_defaultValue (default : Option (Literal × Run (· == ']'))) :
    Quoted.isClosable (defaultValue default) = true := by
  cases default with
  | none => rfl
  | some default => exact default.1.isClosable

end Grammar

namespace Token

/-- Names are names, numbers are numerals and texts do not end in a backslash. -/
def isWritable : Token → Bool
  | .opening | .closing => true
  | .key _ name | .filter name => isName name
  | .default t => Quoted.isClosable t
  | .argument arg => arg.isWritable

theorem isWritable_arguments {args : List Argument} (h : ∀ arg ∈ args, arg.isWritable = true) :
    ∀ token ∈ args.map Token.argument, token.isWritable = true := by
  intro token htoken
  obtain ⟨arg, harg, rfl⟩ := List.mem_map.mp htoken
  exact h arg harg

end Token

namespace Grammar

theorem Ending.isWritable (e : Ending) : ∀ token ∈ e.tokens, token.isWritable = true := by
  intro token htoken
  rw [tokens, List.mem_append, List.mem_flatMap, List.mem_singleton] at htoken
  rcases htoken with ⟨f, -, hf⟩ | rfl
  · rw [FilterPart.tokens, callTokens_eq] at hf
    rcases List.mem_cons.mp hf with rfl | hf
    · exact f.name.isName
    · exact Token.isWritable_arguments (isWritable_callArguments f.args) token hf
  · rfl

theorem Rest.isWritable (rest : Rest) (name : Name) :
    ∀ token ∈ rest.tokens name.text, token.isWritable = true := by
  intro token htoken
  cases rest with
  | parameter default ending =>
    rw [tokens, List.mem_cons, List.mem_append] at htoken
    rcases htoken with rfl | hdefault | hending
    · exact name.isName
    · cases default with
      | none => cases hdefault
      | some default =>
        rw [List.mem_singleton.mp hdefault]
        exact default.1.isClosable
    · exact ending.isWritable token hending
  | helper args ending =>
    rw [tokens, List.mem_cons, List.mem_append, args.tokens_eq] at htoken
    rcases htoken with rfl | hargs | hending
    · exact name.isName
    · exact Token.isWritable_arguments args.isWritable token hargs
    · exact ending.isWritable token hending

end Grammar

theorem Tag.isWritable_of_mem_scan {source : Text} {tag : Tag} (h : tag ∈ Tag.scan source) :
    ∀ token ∈ tag.tokens, token.isWritable = true := by
  obtain ⟨d, _, htokens⟩ := exists_derivation_of_mem_scan h
  intro token htoken
  rw [← htokens, Grammar.Tag.tokens] at htoken
  rcases List.mem_cons.mp htoken with rfl | hrest
  · rfl
  · exact d.rest.isWritable d.name token hrest

/-- Each text that does not end in a backslash has one written form, each finished literal is one,
and tags hold no other texts. -/
theorem Quoted.finishes_iff_escape :
    (∀ s t, Finishes empty s t ↔ t.getLast? ≠ some '\\' ∧ s = escape t ++ ['"']) ∧
    (∀ t, t.getLast? ≠ some '\\' → ∃! s, Finishes empty s t) ∧
    ∀ source, ∀ tag ∈ Tag.scan source, ∀ t,
      .default t ∈ tag.tokens ∨ .argument (.string t) ∈ tag.tokens → t.getLast? ≠ some '\\' := by
  have hclosable (t : Text) : t.getLast? ≠ some '\\' ↔ isClosable t = true := bne_iff_ne.symm
  simp only [hclosable]
  refine ⟨fun s t => finishes_empty_iff, fun t ht => ?_, fun source tag htag t ht => ?_⟩
  · refine ⟨escape t ++ ['"'], finishes_empty_iff.mpr ⟨ht, rfl⟩, fun s hs => ?_⟩
    exact (finishes_empty_iff.mp hs).2
  · rcases ht with hdefault | hstring
    · exact Tag.isWritable_of_mem_scan htag _ hdefault
    · exact Tag.isWritable_of_mem_scan htag _ hstring

/-- A backslash before an escaped quote is one of the text. -/
theorem Quoted.finishes_iff_escape_backslash :
    Finishes empty ['\\', '\\', '"', '"'] ['\\', '"'] ∧
    (∃! s, Finishes empty s ['\\', '"']) ∧ (∀ s, ¬ Finishes empty s ['"', '\\']) ∧
    ∃ tag ∈ Tag.scan "\x7b?a[\"\\\\\"\"]?\x7d".toList, .default ['\\', '"'] ∈ tag.tokens ∧
      ['\\', '"'].getLast? ≠ some '\\' := by
  obtain ⟨hfinishes, hunique, htokens⟩ := finishes_iff_escape
  have hdefault : ∃ tag ∈ Tag.scan "\x7b?a[\"\\\\\"\"]?\x7d".toList,
      .default ['\\', '"'] ∈ tag.tokens := by decide
  obtain ⟨tag, htag, htoken⟩ := hdefault
  refine ⟨(hfinishes _ _).mpr ⟨by decide, rfl⟩, hunique _ (by decide), fun s hs => ?_,
    tag, htag, htoken, htokens _ tag htag _ (.inl htoken)⟩
  exact ((hfinishes _ _).mp hs).1 rfl

end Scaffold
