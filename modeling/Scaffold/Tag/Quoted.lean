import Scaffold.Text

/-!
Double-quoted literals. A quote directly after a backslash belongs to the literal and is read as a
bare quote; any other quote ends it. The opening quote is not part of the body read here.
-/

namespace Scaffold

/-- A literal that is still being read. -/
structure Quoted where
  raw : Text
  afterBackslash : Bool
  deriving DecidableEq, Repr

namespace Quoted

def empty : Quoted := ⟨[], false⟩

def unescape (raw : Text) : Text := Text.replace ['\\', '"'] ['"'] raw

/-- The written form of a text, without its surrounding quotes. -/
def escape (t : Text) : Text := t.flatMap fun c => if c = '"' then ['\\', '"'] else [c]

/-- Feeds one character: the finished text on a closing quote, the longer literal otherwise. -/
def push (q : Quoted) (c : Char) : Text ⊕ Quoted :=
  if c = '"' ∧ q.afterBackslash = false then .inl (unescape q.raw)
  else .inr ⟨q.raw ++ [c], c = '\\'⟩

end Quoted

end Scaffold
