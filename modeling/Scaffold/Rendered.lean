import Scaffold.FrontMatter
import Scaffold.Insertion
import Scaffold.Word
import Scaffold.Yaml.Printer

/-!
A rendered text taken apart: its body, its options, the two directives among them, and the text
that puts body and options together again.
-/

namespace Scaffold

/-- A wish to insert the body into a file instead of saving it. -/
structure AppendDirective where
  /-- Nothing if neither the wish nor the save path names a file. -/
  file : Option Text
  position : Position
  deriving DecidableEq, Repr

namespace AppendDirective

/-- A text where one is given; nothing where there is no value or null. -/
def text? : Option Data → Option (Option Text)
  | none | some .null => some none
  | some (.text t) => some (some t)
  | some _ => none

/-- A line number where one is given, as `text?` does with texts. -/
def line? : Option Data → Option (Option Int)
  | none | some .null => some none
  | some (.int n) => if isInt64 n then some (some n) else none
  | some _ => none

/-- A keyword goes before a line number, and `before` before `after`. -/
def placeOf (before after : Option Text) (line : Option Int) : Position :=
  match before, after, line with
  | some keyword, _, _ => .before keyword
  | none, some keyword, _ => .after keyword
  | none, none, some number => .line number
  | none, none, none => .atEnd

/-- What the option asks for: nothing, the end of a named file, or a described place. -/
def ofOption? : Option Data → Option (Option AppendDirective)
  | none | some .null => some none
  | some (.text file) => some (some ⟨some file, .atEnd⟩)
  | some (.object fields) => do
    let file ← text? (Bindings.get? "file".toList fields)
    let before ← text? (Bindings.get? "before".toList fields)
    let after ← text? (Bindings.get? "after".toList fields)
    let line ← line? (Bindings.get? "line".toList fields)
    pure (some ⟨file, placeOf before after line⟩)
  | some _ => none

/-- The save path stands in for a file that is not named. -/
def orInto (savePath : Text) (a : AppendDirective) : AppendDirective :=
  { a with file := a.file <|> if savePath.isEmpty then none else some savePath }

end AppendDirective

/-- A rendered text, taken apart. -/
structure Rendered where
  body : Text
  options : Bindings Data
  /-- The option `path`, or nothing. -/
  savePath : Text
  append : Option AppendDirective
  deriving BEq, Repr

namespace Rendered

def ofBody (body : Text) : Rendered := ⟨body, [], [], none⟩

def savePath? : Option Data → Except DirectiveFault Text
  | none | some .null => .ok []
  | some (.text path) => .ok path
  | some found => .error (.path found)

/-- Reads the two directives among the options, `append` first, and keeps all options. -/
def ofOptions (options : Bindings Data) (body : Text) : Except DirectiveFault Rendered := do
  let append ← match AppendDirective.ofOption? (options.get? "append".toList) with
    | some append => .ok append
    | none => .error .append
  let savePath ← savePath? (options.get? "path".toList)
  pure ⟨body, options, savePath, append.map (·.orInto savePath)⟩

/-- What is wrong with `append` is told before what is wrong with `path`. -/
theorem ofOptions_eq (options : Bindings Data) (body : Text) : ofOptions options body =
    match AppendDirective.ofOption? (options.get? "append".toList),
      savePath? (options.get? "path".toList) with
    | none, _ => .error .append
    | some _, .error fault => .error fault
    | some append, .ok savePath =>
      .ok ⟨body, options, savePath, append.map (·.orInto savePath)⟩ := by
  rw [ofOptions]
  cases AppendDirective.ofOption? (options.get? "append".toList) with
  | none => rfl
  | some append => cases savePath? (options.get? "path".toList) <;> rfl

/-- Options that can be followed, and what comes of them. -/
theorem exists_of_ofOptions {options : Bindings Data} {body : Text} {r : Rendered}
    (h : ofOptions options body = .ok r) :
    ∃ append savePath, AppendDirective.ofOption? (options.get? "append".toList) = some append ∧
      savePath? (options.get? "path".toList) = .ok savePath ∧
      r = ⟨body, options, savePath, append.map (·.orInto savePath)⟩ := by
  rw [ofOptions_eq] at h
  split at h
  · cases h
  · cases h
  · next append savePath happend hpath =>
    exact ⟨append, savePath, happend, hpath, (Except.ok.inj h).symm⟩

def ofText (t : Text) : Except StubError Rendered :=
  match FrontMatter.split? t with
  | none => .ok (ofBody t)
  | some (block, body) => do
    let options ← FrontMatter.options block
    (ofOptions options body).mapError .invalidFrontMatter

/-- The body with its options in front. -/
def raw (r : Rendered) : Text :=
  if r.options.isEmpty then r.body
  else
    FrontMatter.delimiter ++ '\n' :: Yaml.Printer.block (.object r.options) ++
      FrontMatter.delimiter ++ '\n' :: r.body

end Rendered

end Scaffold
