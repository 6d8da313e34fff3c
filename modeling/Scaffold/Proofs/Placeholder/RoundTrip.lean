import Scaffold.Proofs.Placeholder.Derivation

/-!
The written form of a placeholder, and what is read from it. Main statements: a text with its quotes
escaped is read back whatever it is (`unescape_escape`), and so is a placeholder whose names are
names, whose numbers are numerals and whose texts do not escape their closing quote
(`parse_written`).
-/

namespace Scaffold

/-- Letters, digits and the two marks, with a letter in front. -/
def isName : Text → Bool
  | [] => false
  | c :: t => isNameStart c && t.all isNameChar

/-- Digits with at most one dot, which does not come first. -/
def isNumeral : Text → Bool
  | [] => false
  | c :: t => c.isDigit && t.all (fun d => d.isDigit || d == '.') && decide (t.count '.' ≤ 1)

namespace Quoted

/-- A text that ends in a backslash would take the closing quote in. -/
def isClosable (t : Text) : Bool := t.getLast? != some '\\'

def written (t : Text) : Text := '"' :: (escape t ++ ['"'])

end Quoted

namespace Argument

def written : Argument → Text
  | .string t => Quoted.written t
  | .number t => t
  | .variable name => name

def isWritable : Argument → Bool
  | .string t => Quoted.isClosable t
  | .number t => isNumeral t
  | .variable name => isName name

/-- The arguments of a call in their parentheses. -/
def writtenCall (args : List Argument) : Text :=
  '(' :: ([',', ' '].intercalate (args.map written) ++ [')'])

end Argument

namespace FilterCall

def written (f : FilterCall) : Text :=
  '.' :: (f.name ++ if f.args.isEmpty then [] else Argument.writtenCall f.args)

end FilterCall

namespace Placeholder

def writtenDefault (t : Text) : Text := if t.isEmpty then [] else '[' :: (Quoted.written t ++ [']'])

def written (p : Placeholder) : Text :=
  ['{', '?', ' '] ++ p.key ++ writtenDefault p.default ++
    (if p.isHelper then Argument.writtenCall p.args else []) ++
    p.filters.flatMap FilterCall.written ++ [' ', '?', '}']

/-- A placeholder that a tag may stand for. -/
structure Writable (p : Placeholder) : Prop where
  declared : p.synthetic = false
  key : isName p.key = true
  default : Quoted.isClosable p.default = true
  args : ∀ arg ∈ p.args, arg.isWritable = true
  filters : ∀ f ∈ p.filters, isName f.name = true ∧ ∀ arg ∈ f.args, arg.isWritable = true
  default_of_helper : p.isHelper = true → p.default = []
  args_of_parameter : p.isHelper = false → p.args = []

end Placeholder

/-! ## Literals -/

namespace Quoted

theorem escape_cons (c : Char) (t : Text) :
    escape (c :: t) = (if c = '"' then ['\\', '"'] else [c]) ++ escape t := rfl

theorem head?_escape_ne (t : Text) : (escape t).head? ≠ some '"' := by
  cases t with
  | nil => exact nofun
  | cons c t =>
    rw [escape_cons]
    by_cases hc : c = '"'
    · simp [hc]
    · simp [hc]

theorem unescape_escape (t : Text) : unescape (escape t) = t := by
  have hne : (['\\', '"'] : Text) ≠ [] := by decide
  induction t with
  | nil => exact Text.replace_nil hne _
  | cons c t ih =>
    rw [escape_cons]
    by_cases hc : c = '"'
    · rw [if_pos hc, unescape, Text.replace_append_self hne, hc]
      exact congrArg ('"' :: ·) ih
    · -- A backslash of the text itself has no quote behind it, for quotes are escaped.
      have hhead : ¬ ['\\', '"'] <+: c :: escape t := by
        rintro ⟨rest, hrest⟩
        have hquote := congrArg List.head? (List.cons.inj hrest).2
        exact head?_escape_ne t hquote.symm
      rw [if_neg hc, unescape, List.singleton_append, Text.replace_cons_of_not_head hne _ hhead]
      exact congrArg (c :: ·) ih

/-- What ends a literal does not stand within an escaped text. -/
theorem closes_escape {escaped : Bool} {t : Text}
    (h : t.getLast?.elim escaped (fun c => decide (c = '\\')) = false) :
    Grammar.Closes escaped (escape t) := by
  induction t generalizing escaped with
  | nil => exact h
  | cons c t ih =>
    have hlast : t.getLast?.elim (decide (c = '\\')) (fun c => decide (c = '\\')) = false := by
      cases ht : t.getLast? <;> simpa [List.getLast?_cons, ht] using h
    rw [escape_cons]
    by_cases hc : c = '"'
    · subst hc
      exact ⟨nofun, fun _ => rfl, ih hlast⟩
    · rw [if_neg hc]
      exact ⟨fun hquote => absurd hquote hc, ih hlast⟩

theorem getLast?_escape (t : Text) : (escape t).getLast? = t.getLast? := by
  rcases List.eq_nil_or_concat t with rfl | ⟨t, c, rfl⟩
  · rfl
  · rw [escape, List.concat_eq_append, List.flatMap_append, List.flatMap_singleton]
    split <;> simp [*]

/-- What the last character of a text says of its closing quote. -/
theorem isClosable_iff {t : Text} :
    isClosable t = true ↔ t.getLast?.elim false (fun c => decide (c = '\\')) = false := by
  cases ht : t.getLast? <;> simp [isClosable, ht]

theorem closes_escape_iff {t : Text} : Grammar.Closes false (escape t) ↔ isClosable t = true := by
  refine ⟨fun h => ?_, fun h => closes_escape (isClosable_iff.mp h)⟩
  have hlast := ((Grammar.closes_iff false _).mp h).2
  rwa [getLast?_escape, ← isClosable_iff] at hlast

end Quoted

namespace Grammar

theorem exists_literal {t : Text} (h : Quoted.isClosable t = true) :
    ∃ l : Literal, l.text = Quoted.written t ∧ Quoted.unescape l.body = t := by
  obtain ⟨l, hl⟩ := literal_of_closes (Quoted.closes_escape_iff.mpr h)
  refine ⟨l, ?_, ?_⟩
  · rw [Literal.text, hl, Quoted.written]
  · rw [hl, Quoted.unescape_escape]

/-! ## A derivation for each written form -/

theorem exists_name {t : Text} (h : isName t = true) : ∃ n : Name, n.text = t := by
  cases t with
  | nil => cases h
  | cons c t =>
    obtain ⟨hc, ht⟩ := Bool.and_eq_true_iff.mp h
    exact ⟨⟨c, ⟨t, ht⟩, hc⟩, rfl⟩

/-- Digits up to a dot, and digits behind it. -/
theorem exists_fraction {t : Text} (ht : t.all (fun d => d.isDigit || d == '.') = true)
    (hdots : t.count '.' ≤ 1) : ∃ (tail : Run Char.isDigit) (fraction : Option (Run Char.isDigit)),
      tail.1 ++ fractionText fraction = t := by
  induction t with
  | nil => exact ⟨⟨[], rfl⟩, none, rfl⟩
  | cons c t ih =>
    rw [List.all_cons, Bool.and_eq_true] at ht
    by_cases hc : c = '.'
    · subst hc
      have hnone : t.count '.' = 0 := by
        rw [List.count_cons_self] at hdots
        omega
      have hdigits : t.all Char.isDigit = true := by
        refine List.all_eq_true.mpr fun d hd => ?_
        have hdot : d ≠ '.' := fun heq => List.count_eq_zero.mp hnone (heq ▸ hd)
        have hd := List.all_eq_true.mp ht.2 d hd
        simpa [hdot] using hd
      exact ⟨⟨[], rfl⟩, some ⟨t, hdigits⟩, rfl⟩
    · rw [List.count_cons_of_ne hc] at hdots
      obtain ⟨tail, fraction, rfl⟩ := ih ht.2 hdots
      have hdigit : c.isDigit = true := by simpa [hc] using ht.1
      have htail : (c :: tail.1).all Char.isDigit = true := by
        rw [List.all_cons, hdigit, tail.2]
        rfl
      exact ⟨⟨c :: tail.1, htail⟩, fraction, rfl⟩

theorem exists_arg {arg : Argument} (h : arg.isWritable = true) :
    ∃ a : Arg, a.text = arg.written ∧ a.argument = arg := by
  cases arg with
  | string t =>
    obtain ⟨l, htext, hbody⟩ := exists_literal h
    exact ⟨.quoted l, htext, congrArg Argument.string hbody⟩
  | number t =>
    cases t with
    | nil => cases h
    | cons c t =>
      obtain ⟨hdigits, hdots⟩ := Bool.and_eq_true_iff.mp h
      obtain ⟨hc, ht⟩ := Bool.and_eq_true_iff.mp hdigits
      obtain ⟨tail, fraction, rfl⟩ := exists_fraction ht (of_decide_eq_true hdots)
      exact ⟨.number c hc tail fraction, rfl, rfl⟩
  | «variable» name =>
    obtain ⟨n, rfl⟩ := exists_name h
    exact ⟨.name n, rfl, rfl⟩

/-- The blanks are those behind the comma of the argument before. -/
theorem exists_args (blanks : Blanks) {args : List Argument}
    (h : ∀ arg ∈ args, arg.isWritable = true) : ∃ a : Args,
      a.text = blanks.1 ++ ([',', ' '].intercalate (args.map Argument.written) ++ [')']) ∧
        a.arguments = args := by
  induction args generalizing blanks with
  | nil => exact ⟨.close blanks, rfl, rfl⟩
  | cons arg args ih =>
    obtain ⟨a, htext, rfl⟩ := exists_arg (h arg (List.mem_cons_self ..))
    obtain ⟨as, hrest, rfl⟩ := ih ⟨[' '], rfl⟩ fun arg ha => h arg (List.mem_cons_of_mem _ ha)
    cases hargs : as.arguments with
    | nil =>
      refine ⟨.last blanks a ⟨[], rfl⟩, ?_, rfl⟩
      simp [Args.text, htext]
    | cons next args =>
      rw [hargs] at hrest
      refine ⟨.more blanks a ⟨[], rfl⟩ as, ?_, by rw [Args.arguments, hargs]⟩
      simp [Args.text, htext, hrest]

theorem exists_call {args : List Argument} (h : ∀ arg ∈ args, arg.isWritable = true) :
    ∃ a : Args, '(' :: a.text = Argument.writtenCall args ∧ a.arguments = args := by
  obtain ⟨a, htext, hargs⟩ := exists_args ⟨[], rfl⟩ h
  exact ⟨a, by rw [htext, Argument.writtenCall, List.nil_append], hargs⟩

theorem exists_filterPart {f : FilterCall} (hname : isName f.name = true)
    (hargs : ∀ arg ∈ f.args, arg.isWritable = true) :
    ∃ part : FilterPart, part.text = f.written ∧ part.call = f := by
  obtain ⟨name, args⟩ := f
  obtain ⟨n, rfl⟩ := exists_name hname
  cases args with
  | nil => exact ⟨⟨n, none⟩, rfl, rfl⟩
  | cons arg args =>
    obtain ⟨a, htext, ha⟩ := exists_call hargs
    refine ⟨⟨n, some a⟩, ?_, ?_⟩
    · rw [FilterPart.text, callText, htext]
      rfl
    · rw [FilterPart.call, callArguments, ha]

theorem exists_ending {filters : List FilterCall}
    (h : ∀ f ∈ filters, isName f.name = true ∧ ∀ arg ∈ f.args, arg.isWritable = true) :
    ∃ e : Ending, e.text = filters.flatMap FilterCall.written ++ [' ', '?', '}'] ∧
      e.filters.map FilterPart.call = filters := by
  induction filters with
  | nil => exact ⟨⟨[], ⟨[' '], rfl⟩⟩, rfl, rfl⟩
  | cons f filters ih =>
    obtain ⟨hname, hargs⟩ := h f (List.mem_cons_self ..)
    obtain ⟨part, htext, hcall⟩ := exists_filterPart hname hargs
    obtain ⟨⟨parts, marks⟩, hrest, hcalls⟩ := ih fun f hf => h f (List.mem_cons_of_mem _ hf)
    refine ⟨⟨part :: parts, marks⟩, ?_, ?_⟩
    · rw [Ending.text] at hrest
      rw [Ending.text, List.flatMap_cons, List.append_assoc, hrest, htext, List.flatMap_cons,
        List.append_assoc]
    · rw [List.map_cons, hcall, hcalls]

theorem exists_default {t : Text} (h : Quoted.isClosable t = true) :
    ∃ d : Option (Literal × Run (· == ']')),
      defaultText d = Placeholder.writtenDefault t ∧ defaultValue d = t := by
  cases t with
  | nil => exact ⟨none, rfl, rfl⟩
  | cons c t =>
    obtain ⟨l, htext, hbody⟩ := exists_literal h
    refine ⟨some (l, ⟨[']'], rfl⟩), ?_, hbody⟩
    rw [defaultText, htext]
    rfl

end Grammar

namespace Placeholder

variable {p : Placeholder}

theorem Writable.exists_rest (h : p.Writable) : ∃ rest : Grammar.Rest,
    rest.text = writtenDefault p.default ++
      ((if p.isHelper then Argument.writtenCall p.args else []) ++
        (p.filters.flatMap FilterCall.written ++ [' ', '?', '}'])) ∧
        ∀ code, rest.placeholder p.key code = { p with code } := by
  obtain ⟨ending, hending, hfilters⟩ := Grammar.exists_ending h.filters
  cases hkind : p.kind with
  | helper =>
    have hhelper : p.isHelper = true := decide_eq_true hkind
    have hdefault := h.default_of_helper hhelper
    obtain ⟨args, hcall, hargs⟩ := Grammar.exists_call h.args
    refine ⟨.helper args ending, ?_, fun code => ?_⟩
    · rw [Grammar.Rest.text, hending, ← List.cons_append, hcall, hdefault, if_pos hhelper]
      rfl
    · rw [Grammar.Rest.placeholder, hargs, hfilters, ← hkind, ← hdefault, ← h.declared]
  | parameter =>
    have hhelper : p.isHelper = false := by rw [isHelper, hkind]; rfl
    have hargs := h.args_of_parameter hhelper
    obtain ⟨default, hdefault, hvalue⟩ := Grammar.exists_default h.default
    refine ⟨.parameter default ending, ?_, fun code => ?_⟩
    · rw [Grammar.Rest.text, hending, hdefault, hhelper]
      rfl
    · rw [Grammar.Rest.placeholder, hvalue, hfilters, ← hkind, ← hargs, ← h.declared]

theorem Writable.exists_derivation (h : p.Writable) :
    ∃ d : Grammar.Tag, d.text = p.written ∧ d.placeholder = { p with code := p.written } := by
  obtain ⟨name, hname⟩ := Grammar.exists_name h.key
  obtain ⟨rest, hrest, hplaceholder⟩ := h.exists_rest
  have htext : (⟨⟨[' '], by decide⟩, name, rest⟩ : Grammar.Tag).text = p.written := by
    rw [Grammar.Tag.text, hname, hrest, written]
    simp
  refine ⟨_, htext, ?_⟩
  rw [Grammar.Tag.placeholder, htext, hname, hplaceholder]

/-- A placeholder is read back from its written form, and with it there are only the variables in it
that it does not declare, each once. -/
theorem parse_written (h : p.Writable) : ∃ names : List Text,
    parse p.written = { p with code := p.written } :: names.map synthesize ∧ names.Nodup ∧
      ∀ name, name ∈ names ↔ name ∈ p.variableNames ∧ (p.isHelper = false → name ≠ p.key) := by
  obtain ⟨d, htext, hplaceholder⟩ := h.exists_derivation
  have hparse := parse_derived d
  rw [htext, hplaceholder] at hparse
  exact hparse

private def sample : Placeholder :=
  ⟨['f'], .helper, [], [.string ['a', '"', '\\', '"'], .variable ['x', '-', '1'], .number ['2', '.']],
    [⟨['u'], []⟩, ⟨['r'], [.variable ['f'], .string ['?', '}']]⟩], [], false⟩

private theorem sample_writable : sample.Writable :=
  ⟨rfl, by decide, by decide, by decide, by decide, fun _ => rfl, nofun⟩

/-- Quotes and the end of a tag within texts do no harm, and a helper's own name is no parameter. -/
theorem parse_written_call : sample.Writable ∧
    sample.written = "\x7b? f(\"a\\\"\\\\\"\", x-1, 2.).u.r(f, \"?\x7d\") ?\x7d".toList ∧
    (parse sample.written).head? = some { sample with code := sample.written } ∧
    ∀ q ∈ (parse sample.written).tail, q.synthetic = true := by
  obtain ⟨names, hparse, _⟩ := parse_written sample_writable
  refine ⟨sample_writable, by decide, by rw [hparse]; rfl, ?_⟩
  rw [hparse]
  intro q hq
  obtain ⟨name, _, rfl⟩ := List.mem_map.mp hq
  rfl

end Placeholder

end Scaffold
