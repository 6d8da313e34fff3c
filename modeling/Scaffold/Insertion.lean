import Scaffold.Text

/-!
Insertion of text into a file as new lines, at a place given by a keyword, a line number or the
end. Lines are what stands between newlines, so a text that ends in one has an empty last line.
-/

namespace Scaffold

/-- Where the new lines go. Line numbers count from 1. -/
inductive Position where
  | atEnd
  /-- Above the first line that contains the keyword. -/
  | before (keyword : Text)
  /-- Below the first line that contains the keyword. -/
  | after (keyword : Text)
  | line (number : Int)
  deriving DecidableEq, Repr

namespace Position

def lines (t : Text) : List Text := Text.split '\n' t

def unlines (ls : List Text) : Text := Text.join '\n' ls

/-- How many lines come before the first one with the keyword. -/
def linesBefore? (keyword : Text) (ls : List Text) : Option Nat :=
  ls.findIdx? (Text.contains keyword)

def insertAt (gap : Nat) (content existing : Text) : Text :=
  unlines ((lines existing).take gap ++ content :: (lines existing).drop gap)

/-- The file after the insertion. A missing file is made up of the keyword's line and the content,
and a line number below 1 replaces the whole file. -/
def insert (position : Position) (existing : Option Text) (content : Text) : Text :=
  match position, existing with
  | .atEnd, existing => existing.getD [] ++ '\n' :: content
  | .before keyword, none => content ++ '\n' :: keyword ++ ['\n']
  | .before keyword, some t => insertAt ((linesBefore? keyword (lines t)).getD 0) content t
  | .after keyword, none => keyword ++ '\n' :: content
  | .after keyword, some t =>
    insertAt (((linesBefore? keyword (lines t)).map (· + 1)).getD 0) content t
  | .line _, none => content
  | .line number, some t => if number < 1 then content else insertAt (number - 1).toNat content t

end Position

end Scaffold
