import Scaffold.Text

/-!
Texts from bytes in UTF-8. Bytes that belong to no character are read as replacement characters,
one for each longest run that could still have become a character.
-/

namespace Scaffold.Utf8

def replacement : Char := '\uFFFD'

/-- A character of which some bytes are still missing: its bits so far, and the least and greatest
value of each byte to come. -/
structure Partial where
  bits : Nat
  expected : Nat × Nat
  later : List (Nat × Nat)

private def tailByte : Nat × Nat := (0x80, 0xBF)

/-- What a byte at the start of a character says: a character of its own, the first part of one, or
nothing that can be read. -/
def first (b : Nat) : Text × Option Partial :=
  if b < 0x80 then ([Char.ofNat b], none)
  else if 0xC2 ≤ b ∧ b ≤ 0xDF then ([], some ⟨b - 0xC0, tailByte, []⟩)
  else if 0xE0 ≤ b ∧ b ≤ 0xEF then
    let second := if b = 0xE0 then (0xA0, 0xBF) else if b = 0xED then (0x80, 0x9F) else tailByte
    ([], some ⟨b - 0xE0, second, [tailByte]⟩)
  else if 0xF0 ≤ b ∧ b ≤ 0xF4 then
    let second := if b = 0xF0 then (0x90, 0xBF) else if b = 0xF4 then (0x80, 0x8F) else tailByte
    ([], some ⟨b - 0xF0, second, [tailByte, tailByte]⟩)
  else ([replacement], none)

/-- Reads one byte on from what is missing. -/
def next (missing : Option Partial) (b : Nat) : Text × Option Partial :=
  match missing with
  | none => first b
  | some p =>
    if p.expected.1 ≤ b ∧ b ≤ p.expected.2 then
      let bits := 64 * p.bits + (b - 0x80)
      match p.later with
      | [] => ([Char.ofNat bits], none)
      | expected :: later => ([], some ⟨bits, expected, later⟩)
    else
      let (t, missing) := first b
      (replacement :: t, missing)

private def decodeFrom (missing : Option Partial) : List UInt8 → Text
  | [] => if missing.isSome then [replacement] else []
  | b :: bytes =>
    let (t, missing) := next missing b.toNat
    t ++ decodeFrom missing bytes

def decode (bytes : List UInt8) : Text := decodeFrom none bytes

end Scaffold.Utf8
