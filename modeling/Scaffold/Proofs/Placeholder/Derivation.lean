import Scaffold.Placeholder
import Scaffold.Proofs.Tag.Recognition

/-!
What the tokens of a tag add up to. No token says whose argument it is: it belongs to the filter
before it, and to the helper while there is none. Main statements: a placeholder has the filters and
the arguments that the derivation of its tag has (`ofTag_derived`), and the variables that are not
declared come once each behind the tags, in the order in which they are first named
(`mem_newNames_iff`, `newNames_eq_eraseDups`).
-/

namespace Scaffold

namespace Grammar

def Args.arguments : Args → List Argument
  | .close _ => []
  | .last _ arg _ => [arg.argument]
  | .more _ arg _ rest => arg.argument :: rest.arguments

def callArguments : Option Args → List Argument
  | none => []
  | some args => args.arguments

def FilterPart.call (f : FilterPart) : FilterCall := ⟨f.name.text, callArguments f.args⟩

def defaultValue : Option (Literal × Run (· == ']')) → Text
  | none => []
  | some (literal, _) => Quoted.unescape literal.body

def Rest.placeholder (key code : Text) : Rest → Placeholder
  | .parameter default ending =>
    ⟨key, .parameter, defaultValue default, [], ending.filters.map FilterPart.call, code, false⟩
  | .helper args ending =>
    ⟨key, .helper, [], args.arguments, ending.filters.map FilterPart.call, code, false⟩

/-- What a tag asks for, part by part. -/
def Tag.placeholder (d : Tag) : Placeholder := d.rest.placeholder d.name.text d.text

theorem Args.tokens_eq (a : Args) : a.tokens = a.arguments.map Token.argument := by
  induction a with
  | close x => rfl
  | last x a after => rfl
  | more x a after rest ih => rw [Args.tokens, Args.arguments, List.map_cons, ih]

theorem callTokens_eq (a : Option Args) : callTokens a = (callArguments a).map Token.argument := by
  cases a with
  | none => rfl
  | some args => exact args.tokens_eq

end Grammar

namespace Placeholder

open Grammar (Args Ending FilterPart)

variable {p : Placeholder}

theorem foldl_helperArguments (h : p.filters = []) (args : List Argument) :
    (args.map Token.argument).foldl addToken p = { p with args := p.args ++ args } := by
  induction args generalizing p with
  | nil => simp
  | cons arg args ih =>
    have hfirst : p.addToken (.argument arg) = { p with args := p.args ++ [arg] } := by
      rw [addToken, addArgument, h]
      rfl
    rw [List.map_cons, List.foldl_cons, hfirst, ih (p := { p with args := p.args ++ [arg] }) h]
    simp

theorem foldl_filterArguments {fs : List FilterCall} {f : FilterCall} (h : p.filters = fs ++ [f])
    (args : List Argument) : (args.map Token.argument).foldl addToken p =
      { p with filters := fs ++ [{ f with args := f.args ++ args }] } := by
  induction args generalizing p f with
  | nil => simp [← h]
  | cons arg args ih =>
    have hfirst : p.addToken (.argument arg) =
        { p with filters := fs ++ [{ f with args := f.args ++ [arg] }] } := by
      rw [addToken, addArgument, h, List.getLast?_concat, List.dropLast_concat]
    rw [List.map_cons, List.foldl_cons, hfirst, ih rfl]
    simp

/-- A filter with its arguments is one more filter. -/
theorem foldl_filterPart (f : FilterPart) :
    f.tokens.foldl addToken p = { p with filters := p.filters ++ [f.call] } := by
  rw [FilterPart.tokens, List.foldl_cons, Grammar.callTokens_eq]
  have hlast : (p.addToken (.filter f.name.text)).filters = p.filters ++ [⟨f.name.text, []⟩] := rfl
  exact foldl_filterArguments hlast _

theorem foldl_ending (e : Ending) : e.tokens.foldl addToken p =
    { p with filters := p.filters ++ e.filters.map FilterPart.call } := by
  obtain ⟨fs, marks⟩ := e
  induction fs generalizing p with
  | nil => simp [Ending.tokens, addToken]
  | cons f fs ih =>
    have htokens : (⟨f :: fs, marks⟩ : Ending).tokens =
        f.tokens ++ (⟨fs, marks⟩ : Ending).tokens := by
      simp [Ending.tokens]
    rw [htokens, List.foldl_append, foldl_filterPart, ih]
    simp

/-- The tokens that tell nothing of owners are put together as the tag was. -/
theorem ofTag_derived (d : Grammar.Tag) (start stop : Nat) :
    ofTag ⟨d.tokens, d.text, start, stop⟩ = d.placeholder := by
  obtain ⟨blanks, name, rest⟩ := d
  have hkey (kind : KeyKind) (code : Text) : (blank code).addToken (.key kind name.text) =
      ⟨name.text, kind, [], [], [], code, false⟩ := rfl
  cases rest with
  | helper args ending =>
    rw [ofTag, Grammar.Tag.tokens, Grammar.Rest.tokens, List.foldl_cons, List.foldl_cons]
    change List.foldl addToken ((blank _).addToken (.key .helper name.text)) _ = _
    rw [hkey, List.foldl_append, Args.tokens_eq, foldl_helperArguments rfl, foldl_ending]
    rfl
  | parameter default ending =>
    rw [ofTag, Grammar.Tag.tokens, Grammar.Rest.tokens, List.foldl_cons, List.foldl_cons]
    change List.foldl addToken ((blank _).addToken (.key .parameter name.text)) _ = _
    rw [hkey, List.foldl_append]
    cases default with
    | none =>
      rw [Grammar.defaultTokens, List.foldl_nil, foldl_ending]
      rfl
    | some default =>
      rw [Grammar.defaultTokens, List.foldl_cons, List.foldl_nil, foldl_ending]
      rfl

theorem newNames_of_mem {known : List Text} {name : Text} (names : List Text)
    (h : name ∈ known) : newNames known (name :: names) = newNames known names := if_pos h

theorem newNames_of_not_mem {known : List Text} {name : Text} (names : List Text)
    (h : name ∉ known) :
    newNames known (name :: names) = name :: newNames (name :: known) names := if_neg h

theorem mem_newNames_iff {known names : List Text} {name : Text} :
    name ∈ newNames known names ↔ name ∈ names ∧ name ∉ known := by
  induction names generalizing known with
  | nil =>
    constructor
    · intro h
      cases h
    · rintro ⟨h, _⟩
      cases h
  | cons first names ih =>
    by_cases hfirst : first ∈ known
    · rw [newNames_of_mem names hfirst, ih, List.mem_cons]
      constructor
      · rintro ⟨hmem, hnew⟩
        exact ⟨.inr hmem, hnew⟩
      · rintro ⟨rfl | hmem, hnew⟩
        · exact absurd hfirst hnew
        · exact ⟨hmem, hnew⟩
    · rw [newNames_of_not_mem names hfirst, List.mem_cons, List.mem_cons, ih, List.mem_cons]
      constructor
      · rintro (rfl | ⟨hmem, hnew⟩)
        · exact ⟨.inl rfl, hfirst⟩
        · exact ⟨.inr hmem, fun hknown => hnew (.inr hknown)⟩
      · rintro ⟨rfl | hmem, hnew⟩
        · exact .inl rfl
        · by_cases hname : name = first
          · exact .inl hname
          · exact .inr ⟨hmem, fun h => h.elim hname hnew⟩

theorem newNames_nodup (known names : List Text) : (newNames known names).Nodup := by
  induction names generalizing known with
  | nil => exact List.nodup_nil
  | cons first names ih =>
    by_cases hfirst : first ∈ known
    · rw [newNames_of_mem names hfirst]
      exact ih known
    · rw [newNames_of_not_mem names hfirst, List.nodup_cons]
      refine ⟨fun hmem => ?_, ih (first :: known)⟩
      exact (mem_newNames_iff.mp hmem).2 (List.mem_cons_self ..)

/-- It only matters which names are known. -/
theorem newNames_congr {known other : List Text} (h : ∀ name, name ∈ known ↔ name ∈ other)
    (names : List Text) : newNames known names = newNames other names := by
  induction names generalizing known other with
  | nil => rfl
  | cons first names ih =>
    by_cases hfirst : first ∈ known
    · rw [newNames_of_mem names hfirst, newNames_of_mem names ((h first).mp hfirst), ih h]
    · have hother : first ∉ other := fun hmem => hfirst ((h first).mpr hmem)
      rw [newNames_of_not_mem names hfirst, newNames_of_not_mem names hother]
      refine congrArg (first :: ·) (ih fun name => ?_)
      rw [List.mem_cons, List.mem_cons, h name]

theorem newNames_append (known names more : List Text) :
    newNames known (names ++ more) = newNames known names ++ newNames (known ++ names) more := by
  induction names generalizing known with
  | nil => rw [List.append_nil]; rfl
  | cons first names ih =>
    by_cases hfirst : first ∈ known
    · have hsame : newNames (known ++ names) more = newNames (known ++ first :: names) more := by
        refine newNames_congr (fun name => ?_) more
        have hknown (h : name = first) : name ∈ known := h ▸ hfirst
        rw [List.mem_append, List.mem_append, List.mem_cons]
        tauto
      rw [List.cons_append, newNames_of_mem _ hfirst, newNames_of_mem _ hfirst, ih, hsame]
    · have hsame : newNames (first :: known ++ names) more =
          newNames (known ++ first :: names) more := by
        refine newNames_congr (fun name => ?_) more
        rw [List.mem_append, List.mem_append, List.mem_cons, List.mem_cons]
        tauto
      rw [List.cons_append, newNames_of_not_mem _ hfirst, newNames_of_not_mem _ hfirst, ih, hsame,
        List.cons_append]

theorem newNames_eq_self {known names : List Text} (hnodup : names.Nodup)
    (hnew : ∀ name ∈ names, name ∉ known) : newNames known names = names := by
  induction names generalizing known with
  | nil => rfl
  | cons first names ih =>
    obtain ⟨hfirst, hrest⟩ := List.nodup_cons.mp hnodup
    rw [newNames_of_not_mem names (hnew first (List.mem_cons_self ..)), ih hrest]
    intro name hname hmem
    rcases List.mem_cons.mp hmem with rfl | hknown
    · exact hfirst hname
    · exact hnew name (List.mem_cons_of_mem _ hname) hknown

/-- The order is that of the first occurrences. -/
theorem newNames_eq_eraseDups (known names : List Text) :
    newNames known names = (names.filter (· ∉ known)).eraseDups := by
  induction names generalizing known with
  | nil => rfl
  | cons first names ih =>
    by_cases hfirst : first ∈ known
    · rw [newNames_of_mem names hfirst, List.filter_cons_of_neg (by simpa using hfirst), ih]
    · rw [newNames_of_not_mem names hfirst, List.filter_cons_of_pos (by simpa using hfirst),
        List.eraseDups_cons, ih, List.filter_filter]
      congr 3
      funext name
      by_cases hname : name = first
      · simp [hname]
      · simp [hname]

/-- A tag by itself, and the variables in it that it does not declare. -/
theorem parse_derived (d : Grammar.Tag) : ∃ names : List Text,
    parse d.text = d.placeholder :: names.map synthesize ∧ names.Nodup ∧
      ∀ name, name ∈ names ↔ name ∈ d.placeholder.variableNames ∧
        (d.placeholder.isHelper = false → name ≠ d.placeholder.key) := by
  obtain ⟨hscan, _⟩ := Tag.isWhole_derived d
  have hparse : parse d.text = d.placeholder ::
      (newNames (([d.placeholder].filter (!·.isHelper)).map key)
        d.placeholder.variableNames).map synthesize := by
    rw [parse, hscan, List.map_singleton, ofTag_derived, List.flatMap_singleton]
    rfl
  refine ⟨_, hparse, newNames_nodup _ _, fun name => mem_newNames_iff.trans ?_⟩
  refine and_congr_right fun _ => ?_
  cases hhelper : d.placeholder.isHelper with
  | true => simp [hhelper]
  | false => simp [hhelper]

end Placeholder

end Scaffold
