import Scaffold.Proofs.Render.Scope
import Scaffold.Proofs.Render.Steady
import Scaffold.Proofs.Tag.Recognition

/-!
Rendering without values. Main statement: a stub of plain parameter tags renders without values, and
what comes out is the source without its tags if and only if the stub is steady
(`renderText_blank`); not every such stub is (`exists_blank_changed`).
-/

namespace Scaffold

/-- Only the empty literal stands for the empty text. -/
theorem Quoted.unescape_eq_nil {raw : Text} (h : unescape raw = []) : raw = [] := by
  cases raw with
  | nil => rfl
  | cons c t =>
    have hne : ['\\', '"'] ≠ [] := by simp
    by_cases hhead : ['\\', '"'] <+: c :: t
    · obtain ⟨rest, hrest⟩ := hhead
      rw [unescape, ← hrest, Text.replace_append_self hne] at h
      cases h
    · rw [unescape, Text.replace_cons_of_not_head hne _ hhead] at h
      cases h

namespace Placeholder

variable {p : Placeholder}

/-- A parameter, and nothing that could make its value something else than what is given. -/
def IsPlain (p : Placeholder) : Prop := p.isHelper = false ∧ p.default = [] ∧ p.filters = []

instance (p : Placeholder) : Decidable p.IsPlain := inferInstanceAs (Decidable (_ ∧ _))

theorem addToken_filters_ne_nil (h : p.filters ≠ []) (t : Token) :
    (p.addToken t).filters ≠ [] := by
  cases t with
  | key kind name =>
    rw [addToken]
    split <;> exact h
  | filter name => simp [addToken]
  | argument arg =>
    rw [addToken, addArgument]
    split
    · exact h
    · simp
  | _ => exact h

theorem foldl_filters_ne_nil (h : p.filters ≠ []) (tokens : List Token) :
    (tokens.foldl addToken p).filters ≠ [] := by
  induction tokens generalizing p with
  | nil => exact h
  | cons t tokens ih => exact ih (addToken_filters_ne_nil h t)

/-- The first key decides what a tag is. -/
theorem addToken_key (h : p.key ≠ []) (t : Token) :
    (p.addToken t).key = p.key ∧ (p.addToken t).kind = p.kind := by
  cases t with
  | key kind name =>
    rw [addToken, if_neg (by simpa using h)]
    exact ⟨rfl, rfl⟩
  | argument arg =>
    rw [addToken, addArgument]
    split <;> exact ⟨rfl, rfl⟩
  | _ => exact ⟨rfl, rfl⟩

theorem foldl_kind (h : p.key ≠ []) (tokens : List Token) :
    (tokens.foldl addToken p).kind = p.kind := by
  induction tokens generalizing p with
  | nil => rfl
  | cons t tokens ih =>
    obtain ⟨hkey, hkind⟩ := addToken_key h t
    rw [List.foldl_cons, ih (hkey ▸ h), hkind]

end Placeholder

private theorem brace_not_mem_run {p : Char → Bool} (hp : p '{' = false) (a : Grammar.Run p) :
    '{' ∉ a.1 := by
  intro h
  have hbrace := List.all_eq_true.mp a.2 _ h
  rw [hp] at hbrace
  cases hbrace

theorem Grammar.Name.brace_not_mem (n : Name) : '{' ∉ n.text := by
  intro h
  rcases List.mem_cons.mp h with heq | htail
  · have hstart := n.head_start
    rw [← heq] at hstart
    cases hstart
  · exact brace_not_mem_run rfl n.tail htail

/-- Only literals can have a brace in them, and a plain tag has none but the empty one. -/
theorem Grammar.Rest.brace_not_mem {key code : Text} (hkey : key ≠ []) (a : Rest)
    (hplain : ((a.tokens key).foldl Placeholder.addToken (.blank code)).IsPlain) :
    '{' ∉ a.text := by
  obtain ⟨hkind, hdefault, hfilters⟩ := hplain
  cases a with
  | helper args ending =>
    have hhelper : (((helper args ending).tokens key).foldl Placeholder.addToken
        (.blank code)).kind = .helper := by
      rw [tokens, List.foldl_cons, Placeholder.foldl_kind hkey]
      rfl
    rw [Placeholder.isHelper, hhelper] at hkind
    cases hkind
  | parameter default ending =>
    obtain ⟨filters, marks⟩ := ending
    cases filters with
    | cons f filters =>
      -- Whatever comes behind the name of the first filter, the filter stays.
      refine absurd hfilters ?_
      rw [tokens, List.foldl_cons, List.foldl_append, Ending.tokens, List.flatMap_cons,
        FilterPart.tokens, List.cons_append, List.cons_append, List.foldl_cons]
      refine Placeholder.foldl_filters_ne_nil ?_ _
      simp [Placeholder.addToken]
    | nil =>
      have hmarks := brace_not_mem_run rfl marks
      cases default with
      | none => simpa [text, defaultText, Ending.text] using hmarks
      | some default =>
        obtain ⟨literal, brackets⟩ := default
        have hbrackets := brace_not_mem_run rfl brackets
        have hbody : literal.body = [] := Quoted.unescape_eq_nil hdefault
        simpa [text, defaultText, Ending.text, Literal.text, hbody] using ⟨hbrackets, hmarks⟩

namespace Tag

variable {source : Text} {tag : Tag}

theorem brace_not_mem_of_plain (h : tag ∈ scan source) (hplain : (Placeholder.ofTag tag).IsPlain) :
    ∃ rest, tag.code = '{' :: rest ∧ '{' ∉ rest := by
  obtain ⟨rest, tokens, hcode, htokens, hrest⟩ := exists_rest_of_mem_scan h
  obtain ⟨blanks, name, after, rfl, rfl⟩ := ScanState.yields_of_finish? hrest
  have hblanks := brace_not_mem_run rfl blanks
  have hname := name.brace_not_mem
  have hkey : name.text ≠ [] := List.cons_ne_nil _ _
  have hafter : '{' ∉ after.text := by
    rw [Placeholder.ofTag, htokens] at hplain
    exact after.brace_not_mem hkey hplain
  refine ⟨_, hcode, ?_⟩
  simpa using ⟨hblanks, hname, hafter⟩

/-- Plain tags do not overlap, for the brace is at their beginning only. -/
theorem not_overlaps_of_plain {a b : Tag} (ha : a ∈ scan source) (hb : b ∈ scan source)
    (hplain : (Placeholder.ofTag a).IsPlain) : ¬ Text.Overlaps a.code b.code := by
  obtain ⟨r, hacode, hr⟩ := brace_not_mem_of_plain ha hplain
  obtain ⟨s, _, hbcode, _⟩ := exists_rest_of_mem_scan hb
  rintro ⟨part, hne, hpart, _, hsuf, hpre⟩
  rw [hbcode] at hpre
  obtain ⟨u, hu⟩ := hpre
  cases part with
  | nil => exact hne rfl
  | cons c part =>
    obtain ⟨rfl, _⟩ := List.cons.inj hu
    rw [hacode] at hsuf hpart
    rcases List.suffix_cons_iff.mp hsuf with heq | hsuf
    · exact hpart heq
    · exact hr (hsuf.subset (List.mem_cons_self ..))

end Tag

namespace Stub

variable {s : Stub}

/-- Without values nor defaults every key has the empty value. -/
theorem scope_blank (hplain : ∀ tag ∈ Tag.scan s.source, (Placeholder.ofTag tag).IsPlain)
    (key : Text) : ((s.scope []).get? key).getD [] = [] := by
  by_cases hkey : key ∈ s.parameters.map (·.key)
  · obtain ⟨p, hp, rfl⟩ := List.mem_map.mp hkey
    obtain ⟨q, hq, _, _, hdefault⟩ := default_of_mem_parameters hp
    have hnone : q.default = [] := by
      rcases Placeholder.mem_parse hq with ⟨tag, htag, rfl⟩ | ⟨_, rfl⟩
      · exact (hplain tag htag).2.1
      · rfl
    rw [scope_get?_of_mem [] hp, ← hdefault, hnone]
    rfl
  · rw [scope_get?_of_not_mem [] hkey]
    rfl

theorem resolve_blank (call : HelperCall) (depth : Nat)
    (hplain : ∀ tag ∈ Tag.scan s.source, (Placeholder.ofTag tag).IsPlain) {tag : Tag}
    (h : tag ∈ Tag.scan s.source) :
    resolve call (s.caller [] depth) [] (Placeholder.ofTag tag) = .ok [] := by
  obtain ⟨hkind, hdefault, hfilters⟩ := hplain tag h
  have hbase : baseValue call (s.caller [] depth) [] (Placeholder.ofTag tag) = .ok [] := by
    rw [baseValue_of_parameter _ _ _ hkind, hdefault]
    exact congrArg Except.ok (scope_blank hplain _)
  rw [resolve, hbase, hfilters]
  rfl

theorem renderText_blank (env : Surroundings) (s : Stub)
    (hplain : ∀ tag ∈ Tag.scan s.source, (Placeholder.ofTag tag).IsPlain) :
    (∃ out, s.renderText env [] = .ok out) ∧
    (s.renderText env [] = .ok (Tag.splice (fun _ => []) s.source) ↔ s.Steady fun _ => []) := by
  have hresolve : ∀ tag ∈ Tag.scan s.source,
      resolve (Helper.call env) (s.caller [] 0) [] (Placeholder.ofTag tag) = .ok [] :=
    fun _ => resolve_blank (Helper.call env) 0 hplain
  constructor
  · obtain ⟨tags, hpending, _, hturns⟩ := s.exists_turns
    exact ⟨_, substitute_eq_replaceEach hpending fun tag htag => hresolve tag (hturns.mem tag htag)⟩
  · exact substitute_eq_splice_iff hresolve
      (fun a ha b hb => Tag.not_overlaps_of_plain ha hb (hplain a ha))
      fun _ _ => List.not_mem_nil

private def apart : Stub := ofSource "a{?x?}{?y?}b{?x?}".toList ⟨[], []⟩

private def joined : Stub := ofSource "{{?b?}?a?}{?a?}".toList ⟨[], []⟩

theorem renderText_apart : (∀ tag ∈ Tag.scan apart.source, (Placeholder.ofTag tag).IsPlain) ∧
    apart.renderText .bare [] = .ok ['a', 'b'] := by
  have hplain : ∀ tag ∈ Tag.scan apart.source, (Placeholder.ofTag tag).IsPlain := by decide
  have hpending := pending_of_descending (s := apart) (by decide)
  have hsteady : apart.Steady fun _ => [] := by
    rw [Steady, hpending]
    decide
  exact ⟨hplain, (renderText_blank .bare apart hplain).2.mpr hsteady⟩

/-- Once the first tag is gone, what was around it is the text of the second. -/
theorem exists_blank_changed : ¬ ∀ (env : Surroundings) (s : Stub),
    (∀ tag ∈ Tag.scan s.source, (Placeholder.ofTag tag).IsPlain) →
      s.renderText env [] = .ok (Tag.splice (fun _ => []) s.source) := by
  intro h
  have hplain : ∀ tag ∈ Tag.scan joined.source, (Placeholder.ofTag tag).IsPlain := by decide
  have hpending := pending_of_descending (s := joined) (by decide)
  have hblank : joined.renderText .bare [] = .ok [] := by
    rw [renderText, substitute, hpending]
    rfl
  have hrender := h .bare joined hplain
  rw [hblank] at hrender
  exact absurd (Except.ok.inj hrender) (by decide)

end Stub

end Scaffold
