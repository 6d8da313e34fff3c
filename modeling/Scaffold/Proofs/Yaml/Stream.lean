import Scaffold.Yaml.Printer
import Scaffold.Yaml.Token

/-!
The tokens that a written value is read as. A list below a key of one line is not indented further
than the key, and has no tokens for its start and its end.
-/

namespace Scaffold.Yaml

open Printer

def scalarToken (t : Text) : Token := .scalar (Style.of t = .plain) t

mutual

def stream : Data → List Token
  | .null => [.scalar true "null".toList]
  | .bool true => [.scalar true "true".toList]
  | .bool false => [.scalar true "false".toList]
  | .int n => [.scalar true (Decimal.intText n)]
  | .float x => [.scalar true (Data.floatText x)]
  | .text t => [scalarToken t]
  | .list [] => [.flowSequenceStart, .flowSequenceEnd]
  | .list items => .blockSequenceStart :: itemStream items ++ [.blockEnd]
  | .object [] => [.flowMappingStart, .flowMappingEnd]
  | .object fields => .blockMappingStart :: fieldStream fields ++ [.blockEnd]

def itemStream : List Data → List Token
  | [] => []
  | d :: ds => .blockEntry :: stream d ++ itemStream ds

def fieldStream : List (Text × Data) → List Token
  | [] => []
  | (key, d) :: fields =>
    .key :: scalarToken key :: .value ::
      (match d with
        | .list (x :: xs) =>
          if isSimpleKey key then itemStream (x :: xs)
          else .blockSequenceStart :: itemStream (x :: xs) ++ [.blockEnd]
        | d => stream d) ++
      fieldStream fields

end

theorem stream_items (d : Data) (ds : List Data) : stream (.list (d :: ds)) =
    .blockSequenceStart :: itemStream (d :: ds) ++ [.blockEnd] := by
  rw [stream]
  nofun

theorem stream_fields (field : Text × Data) (fields : List (Text × Data)) :
    stream (.object (field :: fields)) =
      .blockMappingStart :: fieldStream (field :: fields) ++ [.blockEnd] := by
  rw [stream]
  nofun

theorem itemStream_cons (d : Data) (ds : List Data) :
    itemStream (d :: ds) = [.blockEntry] ++ stream d ++ itemStream ds := by
  rw [itemStream]
  rfl

/-- The tokens of a value behind its key. -/
def valueStream (key : Text) : Data → List Token
  | .list (d :: ds) => if isSimpleKey key then itemStream (d :: ds) else stream (.list (d :: ds))
  | d => stream d

theorem valueStream_of_not_list {d : Data} (h : ∀ x xs, d ≠ .list (x :: xs)) (key : Text) :
    valueStream key d = stream d := by
  unfold valueStream
  split
  · next x xs => exact absurd rfl (h x xs)
  · rfl

theorem fieldStream_cons (key : Text) (d : Data) (fields : List (Text × Data)) :
    fieldStream ((key, d) :: fields) =
      [.key, scalarToken key, .value] ++ valueStream key d ++ fieldStream fields := by
  unfold valueStream
  split
  · rw [fieldStream, stream_items]
    rfl
  · next h =>
    rw [fieldStream]
    · rfl
    · exact h

end Scaffold.Yaml
