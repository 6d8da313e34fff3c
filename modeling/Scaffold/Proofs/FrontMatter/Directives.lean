import Scaffold.Rendered

/-!
What options ask for. Relations say which value an option has, where null is none, what is wrong
with the options and where the body is to go. Main statement: options are refused exactly if one of
the two directives has a wrong shape, and what they ask for otherwise is what the relations say; all
options are kept (`ofOptions_directives`).
-/

namespace Scaffold

namespace Options

/-- The option has this value; null is no value. -/
def Says (fields : Bindings Data) (name : String) (d : Data) : Prop :=
  fields.get? name.toList = some d ∧ d ≠ .null

def Silent (fields : Bindings Data) (name : String) : Prop := ∀ d, ¬ Says fields name d

/-- The option has a value that is no text. -/
def NoText (fields : Bindings Data) (name : String) : Prop :=
  ∃ d, Says fields name d ∧ ∀ t, d ≠ .text t

/-- The option has a value that is no integer of 64 bits with a sign. -/
def NoLine (fields : Bindings Data) (name : String) : Prop :=
  ∃ d, Says fields name d ∧
    ∀ n, d = .int n → ¬ (-9223372036854775808 ≤ n ∧ n ≤ 9223372036854775807)

/-- The option `append` says neither a file nor a place. -/
def Misplaced (options : Bindings Data) : Prop :=
  (∃ d, Says options "append" d ∧ (∀ t, d ≠ .text t) ∧ ∀ fields, d ≠ .object fields) ∨
    ∃ fields, Says options "append" (.object fields) ∧
      (NoText fields "file" ∨ NoText fields "after" ∨ NoText fields "before" ∨
        NoLine fields "line")

def Misshapen (options : Bindings Data) : Prop := NoText options "path" ∨ Misplaced options

/-- What is told to be wrong: of two wrong directives it is `append`. -/
inductive Faulty (options : Bindings Data) : DirectiveFault → Prop
  | append : Misplaced options → Faulty options .append
  | path {d : Data} : ¬ Misplaced options → Says options "path" d → (∀ t, d ≠ .text t) →
      Faulty options (.path d)

/-- Where in a file the body goes: `before` counts more than `after`, and `after` than `line`. -/
inductive Placed (fields : Bindings Data) : Position → Prop
  | before {keyword : Text} : Says fields "before" (.text keyword) →
      Placed fields (.before keyword)
  | after {keyword : Text} : Silent fields "before" → Says fields "after" (.text keyword) →
      Placed fields (.after keyword)
  | line {n : Int} : Silent fields "before" → Silent fields "after" →
      Says fields "line" (.int n) → Placed fields (.line n)
  | atEnd : Silent fields "before" → Silent fields "after" → Silent fields "line" →
      Placed fields .atEnd

/-- Which file the body goes into. -/
inductive Into (fields : Bindings Data) (savePath : Text) : Option Text → Prop
  | named {file : Text} : Says fields "file" (.text file) → Into fields savePath (some file)
  | saved : Silent fields "file" → savePath ≠ [] → Into fields savePath (some savePath)
  | nowhere : Silent fields "file" → savePath = [] → Into fields savePath none

inductive Asks (options : Bindings Data) (savePath : Text) : Option AppendDirective → Prop
  | nothing : Silent options "append" → Asks options savePath none
  | file {file : Text} : Says options "append" (.text file) →
      Asks options savePath (some ⟨some file, .atEnd⟩)
  | place {fields : Bindings Data} {file : Option Text} {position : Position} :
      Says options "append" (.object fields) → Into fields savePath file →
      Placed fields position → Asks options savePath (some ⟨file, position⟩)

inductive SavedAt (options : Bindings Data) : Text → Prop
  | path {path : Text} : Says options "path" (.text path) → SavedAt options path
  | nowhere : Silent options "path" → SavedAt options []

/-- The body and the options as they are, and what the options ask for. -/
structure Decodes (options : Bindings Data) (body : Text) (r : Rendered) : Prop where
  body_eq : r.body = body
  options_eq : r.options = options
  savedAt : SavedAt options r.savePath
  asks : Asks options r.savePath r.append

variable {fields options : Bindings Data} {name : String}

theorem silent_or_given (fields : Bindings Data) (name : String) :
    Silent fields name ∨ ∃ d, Says fields name d := by
  by_cases h : ∃ d, Says fields name d
  · exact .inr h
  · exact .inl fun d hgiven => h ⟨d, hgiven⟩

theorem silent_iff :
    Silent fields name ↔ fields.get? name.toList = none ∨ fields.get? name.toList = some .null := by
  simp only [Silent, Says]
  cases fields.get? name.toList with
  | none => simp
  | some d => simp

theorem Says.inj {d e : Data} (hd : Says fields name d) (he : Says fields name e) : d = e :=
  Option.some.inj (hd.1.symm.trans he.1)

end Options

open Options

namespace AppendDirective

variable {fields options : Bindings Data} {name : String}

/-! ## Texts and line numbers -/

theorem text?_eq_none : text? (fields.get? name.toList) = none ↔ NoText fields name := by
  simp only [NoText, Says, and_assoc]
  cases fields.get? name.toList with
  | none => simp [text?]
  | some d => cases d <;> simp [text?]

theorem text?_eq_nothing : text? (fields.get? name.toList) = some none ↔ Silent fields name := by
  simp only [Silent, Says]
  cases fields.get? name.toList with
  | none => simp [text?]
  | some d => cases d <;> simp [text?]

theorem text?_eq_text {t : Text} :
    text? (fields.get? name.toList) = some (some t) ↔ Says fields name (.text t) := by
  simp only [Says]
  cases fields.get? name.toList with
  | none => simp [text?]
  | some d => cases d <;> simp [text?]

theorem line?_int (n : Int) :
    line? (some (.int n)) = if isInt64 n = true then some (some n) else none := rfl

theorem line?_eq_none : line? (fields.get? name.toList) = none ↔ NoLine fields name := by
  simp only [NoLine, Says, and_assoc]
  cases fields.get? name.toList with
  | none => simp [line?]
  | some d =>
    cases d with
    | int n => simp [line?_int, isInt64_iff]
    | _ => simp [line?]

theorem line?_eq_nothing : line? (fields.get? name.toList) = some none ↔ Silent fields name := by
  simp only [Silent, Says]
  cases fields.get? name.toList with
  | none => simp [line?]
  | some d =>
    cases d with
    | int n => simp [line?_int]
    | _ => simp [line?]

/-- A line number is read as it is, unless it is too large. -/
theorem given_of_line? {n : Int} (h : line? (fields.get? name.toList) = some (some n)) :
    Says fields name (.int n) := by
  simp only [Says]
  cases hd : fields.get? name.toList with
  | none => simp [hd, line?] at h
  | some d =>
    cases d with
    | int m =>
      rw [hd, line?_int] at h
      split at h
      · cases h
        exact ⟨rfl, nofun⟩
      · cases h
    | _ => simp [hd, line?] at h

/-! ## Places -/

theorem placed_iff {before after : Option Text} {line : Option Int}
    (hbefore : text? (fields.get? "before".toList) = some before)
    (hafter : text? (fields.get? "after".toList) = some after)
    (hline : line? (fields.get? "line".toList) = some line) (position : Position) :
    Placed fields position ↔ position = placeOf before after line := by
  constructor
  · intro h
    cases h with
    | before hgiven =>
      rw [text?_eq_text.mpr hgiven] at hbefore
      cases hbefore
      rfl
    | after hsilent hgiven =>
      rw [text?_eq_nothing.mpr hsilent] at hbefore
      rw [text?_eq_text.mpr hgiven] at hafter
      cases hbefore
      cases hafter
      rfl
    | line hsilent hsilent' hgiven =>
      rw [text?_eq_nothing.mpr hsilent] at hbefore
      rw [text?_eq_nothing.mpr hsilent'] at hafter
      cases hbefore
      cases hafter
      cases line with
      | none => exact absurd hgiven (line?_eq_nothing.mp hline _)
      | some n =>
        cases hgiven.inj (given_of_line? hline)
        rfl
    | atEnd hsilent hsilent' hsilent'' =>
      rw [text?_eq_nothing.mpr hsilent] at hbefore
      rw [text?_eq_nothing.mpr hsilent'] at hafter
      rw [line?_eq_nothing.mpr hsilent''] at hline
      cases hbefore
      cases hafter
      cases hline
      rfl
  · rintro rfl
    cases before with
    | some keyword => exact .before (text?_eq_text.mp hbefore)
    | none =>
      have hsilent := text?_eq_nothing.mp hbefore
      cases after with
      | some keyword => exact .after hsilent (text?_eq_text.mp hafter)
      | none =>
        have hsilent' := text?_eq_nothing.mp hafter
        cases line with
        | some n => exact .line hsilent hsilent' (given_of_line? hline)
        | none => exact .atEnd hsilent hsilent' (line?_eq_nothing.mp hline)

theorem into_iff {file : Option Text} (h : text? (fields.get? "file".toList) = some file)
    (savePath : Text) (position : Position) (target : Option Text) :
    Into fields savePath target ↔ target = (orInto savePath ⟨file, position⟩).file := by
  constructor
  · intro hinto
    cases hinto with
    | named hgiven =>
      rw [text?_eq_text.mpr hgiven] at h
      cases h
      rfl
    | saved hsilent hne =>
      rw [text?_eq_nothing.mpr hsilent] at h
      cases h
      simp [orInto, hne]
    | nowhere hsilent hnil =>
      rw [text?_eq_nothing.mpr hsilent] at h
      cases h
      simp [orInto, hnil]
  · rintro rfl
    cases file with
    | some file => exact .named (text?_eq_text.mp h)
    | none =>
      have hsilent := text?_eq_nothing.mp h
      by_cases hnil : savePath = []
      · simpa [orInto, hnil] using Into.nowhere hsilent hnil
      · simpa [orInto, hnil] using Into.saved hsilent hnil

/-! ## The option `append` -/

theorem ofOption?_object (fields : Bindings Data) : ofOption? (some (.object fields)) =
    match text? (fields.get? "file".toList), text? (fields.get? "before".toList),
      text? (fields.get? "after".toList), line? (fields.get? "line".toList) with
    | some file, some before, some after, some line =>
      some (some ⟨file, placeOf before after line⟩)
    | _, _, _, _ => none := by
  rw [ofOption?]
  cases text? (fields.get? "file".toList) <;> cases text? (fields.get? "before".toList) <;>
    cases text? (fields.get? "after".toList) <;> cases line? (fields.get? "line".toList) <;> rfl

theorem ofOption?_object_eq_none : ofOption? (some (.object fields)) = none ↔
    NoText fields "file" ∨ NoText fields "after" ∨ NoText fields "before" ∨
      NoLine fields "line" := by
  rw [ofOption?_object, ← text?_eq_none, ← text?_eq_none, ← text?_eq_none, ← line?_eq_none]
  cases text? (fields.get? "file".toList) <;> cases text? (fields.get? "before".toList) <;>
    cases text? (fields.get? "after".toList) <;> cases line? (fields.get? "line".toList) <;> simp

/-- The values that a place is read from. -/
theorem exists_of_ofOption?_object {append : Option AppendDirective}
    (h : ofOption? (some (.object fields)) = some append) :
    ∃ file before after line, text? (fields.get? "file".toList) = some file ∧
      text? (fields.get? "before".toList) = some before ∧
      text? (fields.get? "after".toList) = some after ∧
      line? (fields.get? "line".toList) = some line ∧
      append = some ⟨file, placeOf before after line⟩ := by
  rw [ofOption?_object] at h
  split at h
  · next file before after line hfile hbefore hafter hline =>
    exact ⟨file, before, after, line, hfile, hbefore, hafter, hline, (Option.some.inj h).symm⟩
  · cases h

theorem ofOption?_of_silent (h : Silent options "append") :
    ofOption? (options.get? "append".toList) = some none := by
  obtain h | h := silent_iff.mp h <;> rw [h] <;> rfl

theorem ofOption?_eq_none :
    ofOption? (options.get? "append".toList) = none ↔ Misplaced options := by
  simp only [Misplaced, ← ofOption?_object_eq_none, Says, and_assoc]
  cases options.get? "append".toList with
  | none => simp [ofOption?]
  | some d => cases d <;> simp [ofOption?]

/-- The three ways to ask are told apart by the shape of the value. -/
theorem asks_iff {append : Option AppendDirective}
    (h : ofOption? (options.get? "append".toList) = some append) (savePath : Text)
    (asked : Option AppendDirective) :
    Asks options savePath asked ↔ asked = append.map (·.orInto savePath) := by
  constructor
  · intro hasks
    cases hasks with
    | nothing hsilent =>
      rw [ofOption?_of_silent hsilent] at h
      cases h
      rfl
    | file hgiven =>
      rw [hgiven.1] at h
      cases h
      rfl
    | place hgiven hinto hplaced =>
      rw [hgiven.1] at h
      obtain ⟨file, before, after, line, hfile, hbefore, hafter, hline, rfl⟩ :=
        exists_of_ofOption?_object h
      rw [placed_iff hbefore hafter hline] at hplaced
      rw [into_iff hfile savePath (placeOf before after line)] at hinto
      rw [hplaced, hinto]
      rfl
  · rintro rfl
    obtain hsilent | ⟨d, hgiven⟩ := silent_or_given options "append"
    · rw [ofOption?_of_silent hsilent] at h
      cases h
      exact .nothing hsilent
    rw [hgiven.1] at h
    cases d with
    | null => exact absurd rfl hgiven.2
    | text file =>
      cases h
      exact .file hgiven
    | object fields =>
      obtain ⟨file, before, after, line, hfile, hbefore, hafter, hline, rfl⟩ :=
        exists_of_ofOption?_object h
      exact .place hgiven ((into_iff hfile savePath _ _).mpr rfl)
        ((placed_iff hbefore hafter hline _).mpr rfl)
    | _ => cases h

end AppendDirective

namespace Rendered

variable {options : Bindings Data}

/-! ## The option `path` -/

theorem savePath?_of_silent (h : Silent options "path") :
    savePath? (options.get? "path".toList) = .ok [] := by
  obtain h | h := silent_iff.mp h <;> rw [h] <;> rfl

theorem savePath?_eq_ok {path : Text} :
    savePath? (options.get? "path".toList) = .ok path ↔ SavedAt options path := by
  constructor
  · intro h
    obtain hsilent | ⟨d, hgiven⟩ := silent_or_given options "path"
    · rw [savePath?_of_silent hsilent] at h
      cases h
      exact .nowhere hsilent
    · rw [hgiven.1] at h
      cases d with
      | null => exact absurd rfl hgiven.2
      | text path =>
        cases h
        exact .path hgiven
      | _ => cases h
  · intro h
    cases h with
    | path hgiven =>
      rw [hgiven.1]
      rfl
    | nowhere hsilent => exact savePath?_of_silent hsilent

theorem savePath?_eq_error {fault : DirectiveFault} :
    savePath? (options.get? "path".toList) = .error fault ↔
      ∃ d, Says options "path" d ∧ (∀ t, d ≠ .text t) ∧ fault = .path d := by
  simp only [Says, and_assoc]
  cases options.get? "path".toList with
  | none => simp [savePath?]
  | some d => cases d <;> simp [savePath?, eq_comm]

/-! ## Both options -/

theorem exists_faulty : (∃ fault, Faulty options fault) ↔ Misshapen options := by
  constructor
  · rintro ⟨_, hmisplaced | ⟨_, hgiven, hnot⟩⟩
    · exact .inr hmisplaced
    · exact .inl ⟨_, hgiven, hnot⟩
  · rintro (⟨d, hgiven, hnot⟩ | hmisplaced)
    · by_cases hmisplaced : Misplaced options
      · exact ⟨.append, .append hmisplaced⟩
      · exact ⟨.path d, .path hmisplaced hgiven hnot⟩
    · exact ⟨.append, .append hmisplaced⟩

section Both

variable {body : Text}

theorem ofOptions_eq_error {fault : DirectiveFault} :
    ofOptions options body = .error fault ↔ Faulty options fault := by
  rw [ofOptions_eq]
  cases happend : AppendDirective.ofOption? (options.get? "append".toList) with
  | none =>
    have hmisplaced := AppendDirective.ofOption?_eq_none.mp happend
    constructor
    · rintro ⟨⟩
      exact .append hmisplaced
    · rintro (_ | ⟨hplaced, _, _⟩)
      · rfl
      · exact absurd hmisplaced hplaced
  | some append =>
    have hplaced : ¬ Misplaced options := by
      rw [← AppendDirective.ofOption?_eq_none, happend]
      nofun
    have hpath : savePath? (options.get? "path".toList) = .error fault ↔ Faulty options fault := by
      rw [savePath?_eq_error]
      constructor
      · rintro ⟨d, hgiven, hnot, rfl⟩
        exact .path hplaced hgiven hnot
      · rintro (hmisplaced | ⟨_, hgiven, hnot⟩)
        · exact absurd hmisplaced hplaced
        · exact ⟨_, hgiven, hnot, rfl⟩
    rw [← hpath]
    cases savePath? (options.get? "path".toList) with
    | error _ => simp
    | ok _ => simp

/-- Options can be followed unless a directive has a wrong shape. -/
theorem exists_ofOptions_iff : (∃ r, ofOptions options body = .ok r) ↔ ¬ Misshapen options := by
  rw [← exists_faulty]
  constructor
  · rintro ⟨r, hr⟩ ⟨fault, hfaulty⟩
    rw [ofOptions_eq_error.mpr hfaulty] at hr
    cases hr
  · intro hnone
    cases hr : ofOptions options body with
    | error fault => exact absurd ⟨fault, ofOptions_eq_error.mp hr⟩ hnone
    | ok r => exact ⟨r, rfl⟩

/-- What can be followed says one thing only. -/
theorem decodes_iff {r : Rendered} (h : ofOptions options body = .ok r) (r' : Rendered) :
    Decodes options body r' ↔ r' = r := by
  obtain ⟨append, savePath, happend, hpath, rfl⟩ := exists_of_ofOptions h
  have hasks := AppendDirective.asks_iff happend savePath
  constructor
  · rintro ⟨hbody, hoptions, hsaved, hasked⟩
    obtain ⟨body', options', savePath', append'⟩ := r'
    obtain rfl : savePath = savePath' :=
      Except.ok.inj (hpath.symm.trans (savePath?_eq_ok.mpr hsaved))
    obtain rfl : body' = body := hbody
    obtain rfl : options' = options := hoptions
    obtain rfl : append' = append.map (·.orInto savePath) := (hasks append').mp hasked
    rfl
  · rintro rfl
    exact ⟨rfl, rfl, savePath?_eq_ok.mp hpath, (hasks _).mpr rfl⟩

theorem ofText_of_options {t block : Text} (hsplit : FrontMatter.split? t = some (block, body))
    (hoptions : FrontMatter.options block = .ok options) :
    ofText t = (ofOptions options body).mapError .invalidFrontMatter := by
  rw [ofText, hsplit]
  exact congrArg (· >>= _) hoptions

end Both

/-- Options fail, with a fault that tells which directive has a wrong shape, exactly if one of the
two has; otherwise they decode to one thing only, and it is what they are read as. A text that has
these options in front of its body fails with such a fault or is read so. -/
theorem ofOptions_directives (options : Bindings Data) (body : Text) :
    (∀ fault, ofOptions options body = .error fault ↔ Faulty options fault) ∧
    ((∃ fault, Faulty options fault) ↔ Misshapen options) ∧
    (¬ Misshapen options →
      ∃ r, ofOptions options body = .ok r ∧ ∀ r', Decodes options body r' ↔ r' = r) ∧
    ∀ t block, FrontMatter.split? t = some (block, body) →
      FrontMatter.options block = .ok options →
      ((∃ fault, ofText t = .error (.invalidFrontMatter fault)) ↔ Misshapen options) ∧
      (¬ Misshapen options → ∃ r, ofText t = .ok r ∧ Decodes options body r) := by
  refine ⟨fun fault => ofOptions_eq_error, exists_faulty, fun hshaped => ?_,
    fun t block hsplit hoptions => ⟨?_, fun hshaped => ?_⟩⟩
  · obtain ⟨r, hr⟩ := exists_ofOptions_iff.mpr hshaped
    exact ⟨r, hr, decodes_iff hr⟩
  · rw [ofText_of_options hsplit hoptions, ← exists_faulty]
    refine exists_congr fun fault => ?_
    rw [← ofOptions_eq_error]
    cases ofOptions options body with
    | error found => simp [mapError_error]
    | ok r => simp [mapError_ok]
  · obtain ⟨r, hr⟩ := exists_ofOptions_iff.mpr hshaped
    refine ⟨r, ?_, (decodes_iff hr r).mpr rfl⟩
    rw [ofText_of_options hsplit hoptions, hr, mapError_ok]

/-- A line of the file that the body would be saved in. -/
theorem ofOptions_directives_line :
    FrontMatter.split? "===\npath = 'a'\nappend.line = 3\n===\nhi".toList =
      some ("path = 'a'\nappend.line = 3\n".toList, "hi".toList) ∧
    ∃ options r, FrontMatter.options "path = 'a'\nappend.line = 3\n".toList = .ok options ∧
      ¬ Misshapen options ∧
      ofText "===\npath = 'a'\nappend.line = 3\n===\nhi".toList = .ok r ∧
      Decodes options "hi".toList r ∧ r.append = some ⟨some "a".toList, .line 3⟩ := by
  have hsplit : FrontMatter.split? "===\npath = 'a'\nappend.line = 3\n===\nhi".toList =
      some ("path = 'a'\nappend.line = 3\n".toList, "hi".toList) := by rfl
  have hcheck : (match FrontMatter.options "path = 'a'\nappend.line = 3\n".toList with
    | .ok options =>
      match ofOptions options "hi".toList with
      | .ok r => decide (r.append = some ⟨some "a".toList, .line 3⟩)
      | .error _ => false
    | .error _ => false) = true := by decide +kernel
  cases hoptions : FrontMatter.options "path = 'a'\nappend.line = 3\n".toList with
  | error e =>
    rw [hoptions] at hcheck
    cases hcheck
  | ok options =>
    rw [hoptions] at hcheck
    obtain ⟨_, _, hreads, htext⟩ := ofOptions_directives options "hi".toList
    cases hr : ofOptions options "hi".toList with
    | error fault =>
      simp only [hr, Bool.false_eq_true] at hcheck
    | ok r =>
      simp only [hr, decide_eq_true_eq] at hcheck
      have hshaped := exists_ofOptions_iff.mp ⟨r, hr⟩
      obtain ⟨r', hr', hdecodes⟩ := hreads hshaped
      obtain rfl : r = r' := Except.ok.inj (hr.symm.trans hr')
      obtain ⟨r', hread, hasked⟩ := (htext _ _ hsplit hoptions).2 hshaped
      obtain rfl : r' = r := (hdecodes r').mp hasked
      exact ⟨hsplit, options, r', rfl, hshaped, hread, hasked, hcheck⟩

end Rendered

end Scaffold
