import Scaffold.CaseStyle

/-!
English plurals and singulars. Only the last word of a text is inflected: the letters at its end,
from their last capital on unless all of them are capitals. The result takes over the case of the
first letter, or of all letters.
-/

namespace Scaffold.Inflection

/-- Nouns without a plural of their own. -/
def uncountable : List Text :=
  ["audio", "data", "equipment", "feedback", "fish", "information", "knowledge", "media",
    "metadata", "money", "news", "police", "rice", "series", "sheep", "species", "staff",
    "traffic"].map String.toList

private def pairs (l : List (String × String)) : List (Text × Text) :=
  l.map fun p => (p.1.toList, p.2.toList)

/-- Nouns that no ending rule inflects rightly, each with its plural. -/
def irregular : List (Text × Text) := pairs
  [("child", "children"), ("foot", "feet"), ("goose", "geese"), ("man", "men"),
    ("mouse", "mice"), ("ox", "oxen"), ("person", "people"), ("tooth", "teeth"),
    ("woman", "women"), ("criterion", "criteria"), ("index", "indices"),
    ("matrix", "matrices"), ("status", "statuses"), ("alias", "aliases"), ("leaf", "leaves"),
    ("life", "lives"), ("knife", "knives"), ("wife", "wives"), ("half", "halves"),
    ("cookie", "cookies"), ("movie", "movies"), ("cache", "caches"), ("shelf", "shelves"),
    ("wolf", "wolves"), ("thief", "thieves"), ("bus", "buses"), ("bonus", "bonuses"),
    ("campus", "campuses"), ("census", "censuses"), ("virus", "viruses"),
    ("analysis", "analyses"), ("crisis", "crises"), ("diagnosis", "diagnoses"),
    ("hypothesis", "hypotheses"), ("parenthesis", "parentheses"), ("synopsis", "synopses"),
    ("thesis", "theses")]

/-- Endings and what they become in the plural; the first that fits counts. -/
def pluralEndings : List (Text × Text) := pairs
  [("quiz", "quizzes"), ("sis", "ses"), ("ch", "ches"), ("sh", "shes"), ("ss", "sses"),
    ("x", "xes"), ("z", "zes"), ("us", "uses"), ("ay", "ays"), ("ey", "eys"), ("oy", "oys"),
    ("uy", "uys"), ("y", "ies"), ("s", "s")]

/-- Endings and what they become in the singular; the first that fits counts. -/
def singularEndings : List (Text × Text) := pairs
  [("quizzes", "quiz"), ("sses", "ss"), ("xes", "x"), ("ches", "ch"), ("shes", "sh"),
    ("ies", "y"), ("ss", "ss"), ("us", "us"), ("is", "is"), ("s", "")]

def stripEnding? (ending word : Text) : Option Text :=
  if ending.isSuffixOf word then some (word.take (word.length - ending.length)) else none

def inflectEnding? (endings : List (Text × Text)) (word : Text) : Option Text :=
  endings.findSome? fun e => (stripEnding? e.1 word).map (· ++ e.2)

def findIrregular? (word : Text) : Option (Text × Text) :=
  irregular.find? fun e => e.1 = word ∨ e.2 = word

/-- Plural of a countable lowercase word. -/
def pluralWord (word : Text) : Text :=
  match findIrregular? word with
  | some e => e.2
  | none => (inflectEnding? pluralEndings word).getD (word ++ ['s'])

/-- Singular of a countable lowercase word. -/
def singularWord (word : Text) : Text :=
  match findIrregular? word with
  | some e => e.1
  | none =>
    if ['s', 'i', 's'].isSuffixOf word then word
    else (inflectEnding? singularEndings word).getD word

/-- A text cut before its last word. -/
structure LastWord where
  before : Text
  word : Text
  /-- Whether the letters at the end of the text are all capitals. -/
  allCaps : Bool
  deriving DecidableEq, Repr

def lastWord (t : Text) : LastWord :=
  let letters := t.reverse.takeWhile Char.isAlpha
  let before := (t.reverse.dropWhile Char.isAlpha).reverse
  if letters.all Char.isUpper then ⟨before, letters.reverse, true⟩
  else
    let low := letters.takeWhile (!Char.isUpper ·)
    match letters.dropWhile (!Char.isUpper ·) with
    | [] => ⟨before, low.reverse, false⟩
    | c :: r => ⟨before ++ r.reverse, c :: low.reverse, false⟩

/-- Gives an inflected lowercase word the case of the word it comes from. -/
def recase (word : Text) (allCaps : Bool) (inflected : Text) : Text :=
  if 1 < word.length ∧ allCaps then Text.upper inflected
  else if word.head?.any Char.isUpper then CaseStyle.capitalize inflected
  else inflected

def inflect (rule : Text → Text) (t : Text) : Text :=
  let last := lastWord t
  let low := Text.lower last.word
  if last.word = [] ∨ low ∈ uncountable then t
  else last.before ++ recase last.word last.allCaps (rule low)

def plural (t : Text) : Text := inflect pluralWord t

def singular (t : Text) : Text := inflect singularWord t

end Scaffold.Inflection
