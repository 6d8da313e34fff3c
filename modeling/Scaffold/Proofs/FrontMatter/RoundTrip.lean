import Scaffold.Proofs.FrontMatter.Delimiter
import Scaffold.Proofs.Toml.Soundness
import Scaffold.Proofs.Yaml.Meaning
import Scaffold.Proofs.Yaml.Soundness

/-!
Writing a rendered text back: `raw` puts the options in front of the body, and reading takes them
off again. Main statement: what a text reads as comes back from its written form exactly if the
written options are read back, and a body without options is not itself one with options
(`ofText_raw_iff`).
-/

namespace Scaffold.Rendered

open FrontMatter

theorem ofOptions_nil (body : Text) : ofOptions [] body = .ok (ofBody body) := rfl

theorem parts_of_ofOptions {options : Bindings Data} {body : Text} {r : Rendered}
    (h : ofOptions options body = .ok r) : r.options = options ∧ r.body = body := by
  obtain ⟨append, savePath, _, _, rfl⟩ := exists_of_ofOptions h
  exact ⟨rfl, rfl⟩

/-- What a text reads as: its directives are those of its options, and its options and its body are
those on the two sides of the closing delimiter. -/
theorem ofText_eq_ok_iff {t : Text} {r : Rendered} : ofText t = .ok r ↔
    ofOptions r.options r.body = .ok r ∧
      match split? t with
      | none => r.options = [] ∧ r.body = t
      | some (block, body) => FrontMatter.options block = .ok r.options ∧ r.body = body := by
  rw [ofText]
  cases split? t with
  | none =>
    constructor
    · rintro ⟨⟩
      exact ⟨ofOptions_nil t, rfl, rfl⟩
    · rintro ⟨hparts, hoptions, hbody⟩
      rw [hoptions, hbody, ofOptions_nil] at hparts
      cases hparts
      rfl
  | some parts =>
    obtain ⟨block, body⟩ := parts
    cases hoptions : FrontMatter.options block with
    | error e => simp [hoptions, bind, Except.bind]
    | ok options =>
      simp only [hoptions, bind, Except.bind, Except.ok.injEq]
      constructor
      · intro h
        cases hparts : ofOptions options body with
        | error e =>
          rw [hparts] at h
          cases h
        | ok found =>
          rw [hparts] at h
          cases h
          obtain ⟨rfl, rfl⟩ := parts_of_ofOptions hparts
          exact ⟨hparts, rfl, rfl⟩
      · rintro ⟨hparts, rfl, rfl⟩
        rw [hparts]
        rfl

theorem length_lt_of_split? {t block body : Text} (h : split? t = some (block, body)) :
    body.length < t.length := by
  obtain ⟨first, inner, close, rest, hlines, hfirst, _, _, _, rfl⟩ := split?_eq_some_iff.mp h
  have hflat := congrArg List.flatten hlines
  rw [flatten_lines] at hflat
  have hne : first ≠ [] := by
    rintro rfl
    cases hfirst
  have := List.length_pos_iff.mpr hne
  rw [hflat]
  simp only [List.flatten_cons, List.flatten_append, List.length_append]
  omega

/-- The options as they are written between the delimiters. -/
def optionsText (r : Rendered) : Text := Yaml.Printer.block (.object r.options)

theorem raw_of_options_eq_nil {r : Rendered} (h : r.options = []) : r.raw = r.body := by
  rw [raw, h]
  rfl

theorem raw_of_options_ne_nil {r : Rendered} (h : r.options ≠ []) :
    r.raw = framed r.optionsText r.body := by
  rw [raw, if_neg (by simpa using h)]
  rfl

theorem optionsText_of_ne_nil {r : Rendered} (h : r.options ≠ []) :
    Quiet r.optionsText ∧ r.optionsText ≠ [] := by
  obtain ⟨_, options, _, _⟩ := r
  cases options with
  | nil => exact absurd rfl h
  | cons field fields =>
    refine ⟨Yaml.Printer.quiet_blockFields (field :: fields), ?_⟩
    simp only [optionsText, Yaml.Printer.block, Yaml.Printer.blockFields, Yaml.Printer.entry]
    split <;> simp

/-- The written form reads back exactly if it is split where it was joined and its options read
back. -/
theorem ofText_raw_iff_options {t : Text} {r : Rendered} (h : ofText t = .ok r) :
    ofText r.raw = .ok r ↔
      if r.options = [] then split? r.body = none
      else r.optionsText.getLast? = some '\n' ∧ FrontMatter.options r.optionsText = .ok r.options := by
  rw [ofText_eq_ok_iff, and_iff_right (ofText_eq_ok_iff.mp h).1]
  by_cases hne : r.options = []
  · rw [if_pos hne, raw_of_options_eq_nil hne]
    cases hsplit : split? r.body with
    | none => simp [hne]
    | some parts =>
      obtain ⟨block, body⟩ := parts
      have := length_lt_of_split? hsplit
      simp only [reduceCtorEq, iff_false, not_and]
      rintro _ rfl
      omega
  · obtain ⟨hquiet, htext⟩ := optionsText_of_ne_nil hne
    rw [if_neg hne, raw_of_options_ne_nil hne]
    by_cases hclosed : r.optionsText.getLast? = some '\n'
    · simp [split?_framed hquiet hclosed, hclosed]
    · simp only [hclosed, false_and, iff_false]
      cases hsplit : split? (framed r.optionsText r.body) with
      | none => simp [hne]
      | some parts =>
        obtain ⟨block, body⟩ := parts
        have := length_lt_of_split?_framed hquiet htext hclosed hsplit
        rintro ⟨_, rfl⟩
        omega

/-! ## The options -/

/-- What a block says is something that a document can describe. -/
theorem isValid_of_options {block : Text} {fields : Bindings Data}
    (h : FrontMatter.options block = .ok fields) : Data.IsValid (.object fields) := by
  rw [FrontMatter.options] at h
  split at h
  · next htoml =>
    cases h
    exact Toml.isValid_of_document? htoml
  split at h
  · next hyaml =>
    cases h
    exact Yaml.isValid_of_ofText? hyaml
  · cases h
    exact ⟨List.Pairwise.nil, trivial⟩
  · cases h

theorem isValid_of_ofText {t : Text} {r : Rendered} (h : ofText t = .ok r) :
    Data.IsValid (.object r.options) := by
  have hparts := (ofText_eq_ok_iff.mp h).2
  split at hparts
  · rw [hparts.1]
    exact ⟨List.Pairwise.nil, trivial⟩
  · exact isValid_of_options hparts.1

/-- Written options are YAML, and come back unless they are TOML as well, or nest too deep. -/
theorem options_optionsText_iff {r : Rendered} (hne : r.options ≠ [])
    (h : Data.IsValid (.object r.options)) :
    FrontMatter.options r.optionsText = .ok r.options ↔
      match Toml.document? r.optionsText with
      | some fields => fields = r.options
      | none => (Data.object r.options).nesting ≤ Yaml.Node.maxDepth := by
  rw [FrontMatter.options]
  cases Toml.document? r.optionsText with
  | some fields => simp
  | none =>
    rw [optionsText, Yaml.ofText?_block hne h]
    by_cases hdepth : (Data.object r.options).nesting ≤ Yaml.Node.maxDepth
    · simp [hdepth]
    · simp [hdepth]

/-- What a text reads as comes back from its written form, but for a body alone that starts with
options itself, options whose last line has no end, and options that are read as others. -/
theorem ofText_raw_iff {t : Text} {r : Rendered} (h : ofText t = .ok r) :
    ofText r.raw = .ok r ↔
      if r.options = [] then split? r.body = none
      else r.optionsText.getLast? = some '\n' ∧
        match Toml.document? r.optionsText with
        | some fields => fields = r.options
        | none => (Data.object r.options).nesting ≤ Yaml.Node.maxDepth := by
  rw [ofText_raw_iff_options h]
  split
  · rfl
  · next hne => rw [options_optionsText_iff hne (isValid_of_ofText h)]

theorem ofText_raw_of_path : ∃ r, ofText "===\npath = 'x'\n===\nhi".toList = .ok r ∧
    ofText r.raw = .ok r := by
  have hcheck : (match ofText "===\npath = 'x'\n===\nhi".toList with
    | .ok r => !r.options.isEmpty && r.optionsText.getLast? == some '\n' &&
      (Toml.document? r.optionsText).isNone &&
        (Data.object r.options).nesting ≤ Yaml.Node.maxDepth
    | .error _ => false) = true := by decide +kernel
  cases h : ofText "===\npath = 'x'\n===\nhi".toList with
  | error e =>
    rw [h] at hcheck
    cases hcheck
  | ok r =>
    rw [h] at hcheck
    simp only [Bool.and_eq_true, Bool.not_eq_true', List.isEmpty_eq_false_iff, beq_iff_eq,
      Option.isNone_iff_eq_none, decide_eq_true_eq] at hcheck
    obtain ⟨⟨⟨hne, hline⟩, htoml⟩, hnesting⟩ := hcheck
    refine ⟨r, rfl, (ofText_raw_iff h).mpr ?_⟩
    rw [if_neg hne, htoml]
    exact ⟨hline, hnesting⟩

/-- A body in front of which nothing stands may itself start with options. -/
theorem exists_raw_misread : ∃ t r, ofText t = .ok r ∧ ofText r.raw ≠ .ok r := by
  refine ⟨"===\n===\n===\npath: x\n===\nhi".toList, ofBody "===\npath: x\n===\nhi".toList,
    by rfl, fun h => ?_⟩
  have hparts := (ofText_eq_ok_iff.mp h).2
  have hsplit : split? (ofBody "===\npath: x\n===\nhi".toList).raw =
      some ("path: x\n".toList, "hi".toList) := by rfl
  rw [hsplit] at hparts
  exact absurd hparts.2 (by decide)

end Scaffold.Rendered
