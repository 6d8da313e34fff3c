import Scaffold.Proofs.Placeholder.Literal
import Scaffold.Proofs.Render.Scope

/-!
The list of placeholders that a source gives. Main statement: behind the tags there is one synthetic
parameter for each variable that no tag declares, in the order in which the arguments of the tags
name them first, and what is listed has names for names and no part that its kind does not have
(`parse_listing`).
-/

namespace Scaffold

namespace Token

def argument? : Token → Option Argument
  | .argument arg => some arg
  | _ => none

end Token

namespace Tag

/-- The variables that the arguments of the tags name, one after the other. -/
def references (source : Text) : List Text :=
  (scan source).flatMap fun tag =>
    (tag.tokens.filterMap Token.argument?).filterMap Argument.variableName?

end Tag

namespace Grammar

theorem FilterPart.isWritable (f : FilterPart) :
    isName f.call.name = true ∧ ∀ arg ∈ f.call.args, arg.isWritable = true :=
  ⟨f.name.isName, isWritable_callArguments f.args⟩

theorem Ending.isWritable_calls (e : Ending) : ∀ f ∈ e.filters.map FilterPart.call,
    isName f.name = true ∧ ∀ arg ∈ f.args, arg.isWritable = true := by
  intro f hf
  obtain ⟨part, _, rfl⟩ := List.mem_map.mp hf
  exact part.isWritable

/-- What a derivation asks for can be written. -/
theorem Tag.writable (d : Grammar.Tag) : d.placeholder.Writable := by
  obtain ⟨blanks, name, rest⟩ := d
  cases rest with
  | parameter default ending =>
    exact ⟨rfl, name.isName, isClosable_defaultValue default, nofun, ending.isWritable_calls, nofun,
      fun _ => rfl⟩
  | helper args ending =>
    exact ⟨rfl, name.isName, rfl, args.isWritable, ending.isWritable_calls, fun _ => rfl, nofun⟩

end Grammar

namespace Placeholder

variable {source : Text} {tag : Tag} {p : Placeholder}

theorem ofTag_writable (h : tag ∈ Tag.scan source) : (ofTag tag).Writable := by
  obtain ⟨d, hcode, htokens⟩ := Tag.exists_derivation_of_mem_scan h
  have hderived := ofTag_derived d tag.start tag.stop
  rw [hcode, htokens] at hderived
  rw [hderived]
  exact d.writable

theorem variable_isName {name : Text} (h : p.Writable) (hname : name ∈ p.variableNames) :
    isName name = true := by
  obtain ⟨arg, harg, hvariable⟩ := List.mem_filterMap.mp hname
  have hwritable : arg.isWritable = true := by
    rcases List.mem_append.mp harg with hdirect | hfilter
    · exact h.args arg hdirect
    · obtain ⟨f, hf, harg⟩ := List.mem_flatMap.mp hfilter
      exact (h.filters f hf).2 arg harg
  cases arg with
  | «variable» other =>
    cases hvariable
    exact hwritable
  | string t => cases hvariable
  | number t => cases hvariable

/-! ## References -/

/-- An argument comes last, whichever part of the placeholder it goes to. -/
theorem arguments_addToken (p : Placeholder) (token : Token) :
    (p.addToken token).arguments = p.arguments ++ token.argument?.toList := by
  cases token with
  | argument arg =>
    rw [addToken, addArgument]
    rcases List.eq_nil_or_concat p.filters with hnil | ⟨fs, f, hconcat⟩
    · simp [hnil, arguments, Token.argument?]
    · simp [hconcat, arguments, Token.argument?]
  | key kind name =>
    rw [addToken]
    split <;> simp [arguments, Token.argument?]
  | filter name => simp [addToken, arguments, Token.argument?]
  | _ => simp [addToken, arguments, Token.argument?]

theorem arguments_foldl (tokens : List Token) (p : Placeholder) :
    (tokens.foldl addToken p).arguments = p.arguments ++ tokens.filterMap Token.argument? := by
  induction tokens generalizing p with
  | nil => rw [List.foldl_nil, List.filterMap_nil, List.append_nil]
  | cons token tokens ih =>
    rw [List.foldl_cons, ih, arguments_addToken, List.append_assoc]
    cases h : token.argument? with
    | none => rw [List.filterMap_cons_none h]; rfl
    | some arg => rw [List.filterMap_cons_some h]; rfl

theorem flatMap_variableNames (source : Text) :
    ((Tag.scan source).map ofTag).flatMap variableNames = Tag.references source := by
  rw [Tag.references, List.flatMap_map]
  refine List.flatMap_congr fun tag _ => ?_
  rw [variableNames, ofTag, arguments_foldl]
  rfl

theorem ne_of_mem_newNames {known names : List Text} {first name : Text} (hfirst : first ∈ known)
    (h : name ∈ newNames known names) : first ≠ name := by
  rintro rfl
  exact (mem_newNames_iff.mp h).2 hfirst

/-- A known name in front puts off each new name by one place. -/
theorem ordered_behind {known names : List Text} {first : Text} (hfirst : first ∈ known)
    (h : (newNames known names).Pairwise fun a b => names.idxOf a < names.idxOf b) :
    (newNames known names).Pairwise fun a b =>
      (first :: names).idxOf a < (first :: names).idxOf b := by
  refine h.imp_of_mem fun ha hb hab => ?_
  rw [List.idxOf_cons_ne _ (ne_of_mem_newNames hfirst ha),
    List.idxOf_cons_ne _ (ne_of_mem_newNames hfirst hb)]
  exact Nat.succ_lt_succ hab

/-- New names come in the order in which they are first met. -/
theorem newNames_ordered (known names : List Text) :
    (newNames known names).Pairwise fun a b => names.idxOf a < names.idxOf b := by
  induction names generalizing known with
  | nil => exact List.Pairwise.nil
  | cons first names ih =>
    by_cases hfirst : first ∈ known
    · rw [newNames_of_mem names hfirst]
      exact ordered_behind hfirst (ih known)
    · have hknown : first ∈ first :: known := List.mem_cons_self
      rw [newNames_of_not_mem names hfirst, List.pairwise_cons]
      refine ⟨fun name hname => ?_, ordered_behind hknown (ih (first :: known))⟩
      rw [List.idxOf_cons_self, List.idxOf_cons_ne _ (ne_of_mem_newNames hknown hname)]
      exact Nat.succ_pos _

/-! ## The list -/

theorem parse_eq (source : Text) : parse source = (Tag.scan source).map ofTag ++
    (newNames ((((Tag.scan source).map ofTag).filter (!·.isHelper)).map key)
      (Tag.references source)).map synthesize := by
  rw [parse, flatMap_variableNames]

theorem exists_of_mem_references {name : Text} (h : name ∈ Tag.references source) :
    ∃ tag ∈ Tag.scan source, name ∈ (ofTag tag).variableNames := by
  rw [← flatMap_variableNames, List.flatMap_map] at h
  exact List.mem_flatMap.mp h

theorem mem_declared_iff {tags : List Tag} {name : Text} :
    name ∈ ((tags.map ofTag).filter (!·.isHelper)).map key ↔
      ∃ tag ∈ tags, (ofTag tag).isHelper = false ∧ (ofTag tag).key = name := by
  simp [and_assoc]

/-- A tag with all that a tag can have, or a variable of some tag. -/
theorem mem_parse_cases (h : p ∈ parse source) :
    (p.Writable ∧ p.code ≠ []) ∨ ∃ name, isName name = true ∧ p = synthesize name := by
  rw [parse_eq] at h
  rcases List.mem_append.mp h with hp | hp
  · obtain ⟨tag, htag, rfl⟩ := List.mem_map.mp hp
    obtain ⟨rest, _, hcode, _, _⟩ := Tag.exists_rest_of_mem_scan htag
    refine .inl ⟨ofTag_writable htag, ?_⟩
    rw [(ofTag_code tag).1, hcode]
    exact List.cons_ne_nil _ _
  · obtain ⟨name, hname, rfl⟩ := List.mem_map.mp hp
    obtain ⟨tag, htag, hvariable⟩ := exists_of_mem_references (mem_newNames_iff.mp hname).1
    exact .inr ⟨name, variable_isName (ofTag_writable htag) hvariable, rfl⟩

/-- The list is closed under the variables that it names, and nothing is in it that is not asked
for. -/
theorem parse_listing :
    (∀ source, ∃ names : List Text,
      parse source = (Tag.scan source).map ofTag ++ names.map synthesize ∧
      ((Tag.scan source).Pairwise fun a b => a.start < b.start) ∧
      (∀ name ∈ Tag.references source, ∃ p ∈ parse source, p.isHelper = false ∧ p.key = name) ∧
      names.Nodup ∧
      (∀ name, name ∈ names ↔ name ∈ Tag.references source ∧
        ¬ ∃ tag ∈ Tag.scan source, (ofTag tag).isHelper = false ∧ (ofTag tag).key = name) ∧
      (names.Pairwise fun a b =>
        (Tag.references source).idxOf a < (Tag.references source).idxOf b) ∧
      ∀ p ∈ parse source, (p.synthetic = true ↔ p.code = []) ∧
        (p.synthetic = true → p.default = []) ∧ isName p.key = true ∧
        (∀ f ∈ p.filters, isName f.name = true) ∧ (∀ name ∈ p.variableNames, isName name = true) ∧
        (p.isHelper = true → p.default = []) ∧ (p.isHelper = false → p.args = [])) ∧
    ∃ source, ∃ p ∈ parse source, ∃ helper ∈ parse source,
      p.synthetic = true ∧ helper.isHelper = true ∧ p.key = helper.key := by
  refine ⟨fun source => ⟨_, parse_eq source, Tag.scan_starts source, ?_, newNames_nodup _ _, ?_,
    newNames_ordered _ _, ?_⟩, "\x7b?f(f)?\x7d".toList, by decide⟩
  · intro name hname
    obtain ⟨tag, htag, hvariable⟩ := exists_of_mem_references hname
    exact exists_of_variable htag hvariable
  · intro name
    rw [mem_newNames_iff, mem_declared_iff]
  · intro p hp
    rcases mem_parse_cases hp with ⟨hp, hcode⟩ | ⟨name, hname, rfl⟩
    · have hdeclared := hp.declared
      refine ⟨?_, ?_, hp.key, fun f hf => (hp.filters f hf).1, fun name => variable_isName hp,
        hp.default_of_helper, hp.args_of_parameter⟩
      · simp [hdeclared, hcode]
      · simp [hdeclared]
    · exact ⟨⟨fun _ => rfl, fun _ => rfl⟩, fun _ => rfl, hname, nofun, nofun, fun _ => rfl,
        fun _ => rfl⟩

private def calls : Text :=
  "\x7b?a.x(b, \"q\", a)?\x7d\x7b?f(f, 2, b, c)?\x7d\x7b?c[\"d\"]?\x7d".toList

/-- A variable of its own tag, one that a later tag declares, and one with the name of a helper. -/
theorem parse_listing_calls :
    Tag.references calls = [['b'], ['a'], ['f'], ['b'], ['c']] ∧
    (parse calls).map key = [['a'], ['f'], ['c'], ['b'], ['f']] ∧
    (∃ p ∈ parse calls, p.isHelper = false ∧ p.key = ['f']) ∧
    ∃ names : List Text, parse calls = (Tag.scan calls).map ofTag ++ names.map synthesize ∧
      ['b'] ∈ names ∧ ['f'] ∈ names ∧ ['a'] ∉ names ∧ ['c'] ∉ names := by
  obtain ⟨names, hparse, _, hclosed, _, hnames, _⟩ := parse_listing.1 calls
  refine ⟨by decide, by decide, hclosed _ (by decide), names, hparse, ?_⟩
  simp only [hnames]
  decide

end Placeholder

end Scaffold
