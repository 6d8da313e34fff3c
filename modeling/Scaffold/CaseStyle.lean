import Scaffold.Text

/-!
Case styles of identifiers and headings. Letters are those of ASCII: any other character is kept
as it is and never starts a word by itself.
-/

namespace Scaffold.CaseStyle

def capitalize : Text → Text
  | [] => []
  | c :: t => c.toUpper :: t

def uncapitalize : Text → Text
  | [] => []
  | c :: t => c.toLower :: t

/-- The six ASCII characters that end a word. -/
def isSeparator (c : Char) : Bool :=
  c == ' ' || c == '\t' || c == '\r' || c == '\n' || c == '\x0b' || c == '\x0c'

/-- Capitalizes each character that follows a separator, and the first one if it starts a word. -/
def capitalizeFrom : Bool → Text → Text
  | _, [] => []
  | atStart, c :: t => (if atStart then c.toUpper else c) :: capitalizeFrom (isSeparator c) t

/-- Capitalizes the first character and each one that follows a separator. -/
def capitalizeWords (t : Text) : Text := capitalizeFrom true t

/-- Puts a space before every capital but a leading one. -/
def spaceCapitals : Text → Text
  | [] => []
  | c :: t => c :: t.flatMap fun c => if c.isUpper then [' ', c] else [c]

/-- Lowercase words with single spaces between them. Words start where `capitalizeWords` puts a
capital and at the capitals of the text; all blanks go. -/
def words (t : Text) : Text :=
  if !t.isEmpty && t.all Char.isLower then t
  else Text.lower (spaceCapitals ((capitalizeWords t).filter (!Text.isBlank ·)))

def kebab (t : Text) : Text := (words t).map fun c => if c = ' ' then '-' else c

def snake (t : Text) : Text := (words t).map fun c => if c = ' ' then '_' else c

def studly (t : Text) : Text :=
  (capitalizeWords (t.map fun c => if c = '-' ∨ c = '_' then ' ' else c)).filter (· != ' ')

def camel (t : Text) : Text := uncapitalize (studly t)

def title (t : Text) : Text := capitalizeWords (words t)

end Scaffold.CaseStyle
