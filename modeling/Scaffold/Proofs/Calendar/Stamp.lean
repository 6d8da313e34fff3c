import Scaffold.Proofs.Calendar.Succession
import Scaffold.Proofs.Number.Digits

/-!
Date stamps: a moment written part by part, from the year down to the second, each part with as many
digits as the greatest one needs. Main statements: numbers of one width are in the order of their
texts (`digits_append_lt`), so that stamps sort by time, and an escaped text stands for itself in
front of any format (`stamps_ascend`).
-/

namespace Scaffold.DateFormat

/-! ## Numbers of one width -/

/-- The last digits of a number, as many as are asked for. -/
def digits : Nat → Nat → Text
  | 0, _ => []
  | width + 1, n => digits width (n / 10) ++ [(n % 10).digitChar]

theorem length_digits (width n : Nat) : (digits width n).length = width := by
  induction width generalizing n with
  | zero => rfl
  | succ width ih => rw [digits, List.length_append, ih, List.length_singleton]

theorem digits_zero (width : Nat) : digits width 0 = List.replicate width '0' := by
  induction width with
  | zero => rfl
  | succ width ih =>
    rw [digits, ih, List.replicate_succ']
    rfl

theorem digitChar_lt {a b : Nat} (h : a < b) (hb : b < 10) : a.digitChar < b.digitChar := by
  have hall : ∀ b < 10, ∀ a < b, a.digitChar < b.digitChar := by decide
  exact hall b hb a h

/-- The first digits decide, and behind equal ones the last. -/
theorem digits_append_lt {width a b : Nat} (h : a < b) (hb : b < 10 ^ width) (s t : Text) :
    digits width a ++ s < digits width b ++ t := by
  induction width generalizing a b s t with
  | zero => omega
  | succ width ih =>
    rw [digits, digits, List.append_assoc, List.append_assoc]
    rcases Nat.lt_or_eq_of_le (Nat.div_le_div_right (c := 10) (Nat.le_of_lt h)) with hfirst | hsame
    · refine ih hfirst ?_ _ _
      rw [Nat.pow_succ] at hb
      omega
    · rw [hsame]
      refine List.append_left_lt ?_
      exact List.Lex.rel (digitChar_lt (by omega) (Nat.mod_lt _ (by decide)))

theorem zeros_digitText {width n : Nat} (hwidth : width ≠ 0) (hn : n < 10 ^ width) :
    List.replicate (width - (Decimal.digitText n).length) '0' ++ Decimal.digitText n =
      digits width n := by
  induction width generalizing n with
  | zero => exact absurd rfl hwidth
  | succ width ih =>
    rw [digits]
    rcases Nat.lt_or_ge n 10 with hlt | hge
    · rw [Decimal.digitText_of_lt hlt, Nat.div_eq_of_lt hlt, Nat.mod_eq_of_lt hlt, digits_zero]
      rfl
    · have hne : width ≠ 0 := by
        rintro rfl
        omega
      rw [Nat.pow_succ] at hn
      rw [Decimal.digitText_of_ge hge, List.length_append, List.length_singleton,
        Nat.add_sub_add_right, ← List.append_assoc, ih hne (by omega)]

theorem pad_eq_digits {width n : Nat} (hwidth : width ≠ 0) (hn : n < 10 ^ width) :
    pad width n = digits width n := by
  have hsign : ¬ (n : Int) < 0 := by omega
  rw [pad, if_neg hsign, Int.natAbs_natCast, zeros_digitText hwidth hn]

/-! ## The parts of a moment -/

/-- What a stamp tells, the greater before the smaller. -/
inductive Part where
  | year
  | month
  | day
  | hour
  | minute
  | second
  deriving DecidableEq, Repr

namespace Part

def all : List Part := [.year, .month, .day, .hour, .minute, .second]

def letter : Part → Char
  | .year => 'Y'
  | .month => 'm'
  | .day => 'd'
  | .hour => 'H'
  | .minute => 'i'
  | .second => 's'

def width : Part → Nat
  | .year => 4
  | _ => 2

def value (m : Moment) : Part → Nat
  | .year => m.date.year.toNat
  | .month => m.date.month
  | .day => m.date.day
  | .hour => m.hour
  | .minute => m.minute
  | .second => m.second

end Part

/-- Four digits hold the year. -/
def FourDigitYear (m : Moment) : Prop := 0 ≤ m.date.year ∧ m.date.year ≤ 9999

variable {m m' : Moment}

theorem value_lt (h : FourDigitYear m) (part : Part) : part.value m < 10 ^ part.width := by
  obtain ⟨⟨hmonth, hmonth'⟩, hday, hday'⟩ := Date.isValid_ofDays m.days
  have hlength := Date.monthLength_le m.date.year m.date.month
  have hyear := h.2
  have hsecond : m.secondOfDay < 86400 := by
    rw [Moment.secondOfDay]
    omega
  cases part with
  | year =>
    change m.date.year.toNat < 10000
    omega
  | month =>
    change m.date.month < 100
    exact Nat.lt_of_le_of_lt hmonth' (by decide)
  | day =>
    change m.date.day < 100
    exact Nat.lt_of_le_of_lt (Nat.le_trans hday' hlength) (by decide)
  | hour =>
    change m.secondOfDay / 3600 < 100
    omega
  | minute =>
    change m.secondOfDay / 60 % 60 < 100
    omega
  | second =>
    change m.secondOfDay % 60 < 100
    omega

theorem field?_letter (h : FourDigitYear m) (part : Part) :
    field? m part.letter = some (digits part.width (part.value m)) := by
  have hwidth : part.width ≠ 0 := by cases part <;> decide
  rw [← pad_eq_digits hwidth (value_lt h part)]
  cases part with
  | year =>
    have hyear : (m.date.year.toNat : Int) = m.date.year := Int.toNat_of_nonneg h.1
    change some (pad 4 m.date.year) = some (pad 4 m.date.year.toNat)
    rw [hyear]
  | _ => rfl

/-- The first of the greater parts that differ is less in the earlier moment. -/
theorem values_lt {offset t t' : Int} (h : t < t') (hyear : FourDigitYear ⟨t, offset⟩) :
    Part.all.map (Part.value ⟨t, offset⟩) < Part.all.map (Part.value ⟨t', offset⟩) := by
  have hdays : Moment.days ⟨t, offset⟩ < Moment.days ⟨t', offset⟩ ∨
      Moment.days ⟨t, offset⟩ = Moment.days ⟨t', offset⟩ ∧
        Moment.secondOfDay ⟨t, offset⟩ < Moment.secondOfDay ⟨t', offset⟩ := by
    simp only [Moment.days, Moment.secondOfDay, Moment.localSeconds]
    omega
  -- The date decides, and within one day the second.
  simp only [Part.all, List.map_cons, List.cons_lt_cons_iff, Part.value, List.map_nil,
    List.not_lt_nil, and_false, or_false]
  rcases hdays with hlt | ⟨hsame, hsecond⟩
  · have hbefore : (Moment.date ⟨t, offset⟩).Before (Moment.date ⟨t', offset⟩) :=
      Date.before_ofDays hlt
    have hyear' := hyear.1
    rw [Date.Before] at hbefore
    omega
  · have hdate : Moment.date ⟨t, offset⟩ = Moment.date ⟨t', offset⟩ := congrArg Date.ofDays hsame
    rw [hdate]
    simp only [Nat.lt_irrefl, false_or, true_and, Moment.hour, Moment.minute, Moment.second]
    omega

/-! ## Stamps -/

/-- A character that every moment writes as itself. -/
def IsMark (c : Char) : Prop := c ≠ '\\' ∧ ∀ m, field? m c = none

variable {separator : Part → Text}

theorem format_cons {c : Char} (h : c ≠ '\\') (m : Moment) (g : Text) :
    format m (c :: g) = (field? m c).getD [c] ++ format m g := by
  cases g <;> simp [format, h]

theorem format_marks {t : Text} (h : ∀ c ∈ t, IsMark c) (m : Moment) (g : Text) :
    format m (t ++ g) = t ++ format m g := by
  induction t with
  | nil => rfl
  | cons c t ih =>
    obtain ⟨hescape, hfield⟩ := h c List.mem_cons_self
    rw [List.cons_append, format_cons hescape, hfield, ih fun c hc => h c (.tail _ hc)]
    rfl

theorem format_parts (h : FourDigitYear m) (hmarks : ∀ p, ∀ c ∈ separator p, IsMark c)
    (parts : List Part) :
    format m (parts.flatMap fun p => p.letter :: separator p) =
      parts.flatMap fun p => digits p.width (p.value m) ++ separator p := by
  induction parts with
  | nil => rfl
  | cons p parts ih =>
    have hletter : p.letter ≠ '\\' := by cases p <;> decide
    rw [List.flatMap_cons, List.flatMap_cons, List.cons_append, format_cons hletter,
      field?_letter h, format_marks (hmarks p), ih, List.append_assoc]
    rfl

theorem length_parts (value value' : Part → Nat) (parts : List Part) :
    (parts.flatMap fun p => digits p.width (value p) ++ separator p).length =
      (parts.flatMap fun p => digits p.width (value' p) ++ separator p).length := by
  simp only [List.length_flatMap, List.length_append, length_digits]

theorem parts_lt {value value' : Part → Nat} {parts : List Part}
    (hvalue : ∀ p, value' p < 10 ^ p.width) (h : parts.map value < parts.map value') :
    (parts.flatMap fun p => digits p.width (value p) ++ separator p) <
      parts.flatMap fun p => digits p.width (value' p) ++ separator p := by
  induction parts with
  | nil => exact absurd h (List.lt_irrefl _)
  | cons p parts ih =>
    simp only [List.flatMap_cons, List.append_assoc]
    rw [List.map_cons, List.map_cons, List.cons_lt_cons_iff] at h
    rcases h with hfirst | ⟨hsame, hrest⟩
    · exact digits_append_lt hfirst (hvalue p) _ _
    · rw [hsame]
      exact List.append_left_lt (List.append_left_lt (ih hrest))

/-- The formats of stamps with every part. -/
def stampFormats : List Text := ["YmdHis", "Y-m-d H:i:s", "Y_m_d_His"].map String.toList

theorem exists_separator {f : Text} (h : f ∈ stampFormats) :
    ∃ separator : Part → Text, (∀ p, ∀ c ∈ separator p, IsMark c) ∧
      f = Part.all.flatMap fun p => p.letter :: separator p := by
  have hmark : ∀ c ∈ ['-', ' ', ':', '_'], IsMark c := by
    intro c hc
    simp only [List.mem_cons, List.not_mem_nil, or_false] at hc
    rcases hc with rfl | rfl | rfl | rfl <;> exact ⟨by decide, fun _ => rfl⟩
  have hmarks : ∀ separator : Part → Text, (∀ p, separator p ⊆ ['-', ' ', ':', '_']) →
      ∀ p, ∀ c ∈ separator p, IsMark c :=
    fun _ hsub p c hc => hmark c (hsub p hc)
  simp only [stampFormats, List.map_cons, List.map_nil, List.mem_cons, List.not_mem_nil,
    or_false] at h
  rcases h with rfl | rfl | rfl
  · exact ⟨fun _ => [], hmarks _ fun _ => List.nil_subset _, rfl⟩
  · refine ⟨fun
      | .year | .month => ['-']
      | .day => [' ']
      | .hour | .minute => [':']
      | .second => [], hmarks _ ?_, rfl⟩
    intro p
    cases p <;> decide
  · refine ⟨fun
      | .year | .month | .day => ['_']
      | _ => [], hmarks _ ?_, rfl⟩
    intro p
    cases p <;> decide

/-! ## Escapes -/

/-- A text with a backslash before each character. -/
def escape (t : Text) : Text := t.flatMap fun c => ['\\', c]

theorem format_escape (m : Moment) (t g : Text) : format m (escape t ++ g) = t ++ format m g := by
  induction t with
  | nil => rfl
  | cons c t ih =>
    change c :: format m (escape t ++ g) = c :: (t ++ format m g)
    rw [ih]

/-- Stamps of one length that sort by time, and escapes that write any text. -/
theorem stamps_ascend :
    (∀ offset t t' : Int, t < t' → FourDigitYear ⟨t, offset⟩ → FourDigitYear ⟨t', offset⟩ →
      ∀ f ∈ stampFormats,
        (format ⟨t, offset⟩ f).length = (format ⟨t', offset⟩ f).length ∧
          format ⟨t, offset⟩ f < format ⟨t', offset⟩ f) ∧
    ∀ m t g, format m (escape t) = t ∧ format m (escape t ++ g) = t ++ format m g := by
  refine ⟨fun offset t t' hlt hyear hyear' f hf => ?_, fun m t g => ⟨?_, format_escape m t g⟩⟩
  · obtain ⟨separator, hmarks, rfl⟩ := exists_separator hf
    rw [format_parts hyear hmarks, format_parts hyear' hmarks]
    exact ⟨length_parts _ _ _, parts_lt (value_lt hyear') (values_lt hlt hyear)⟩
  · have hall := format_escape m t []
    rwa [List.append_nil, format, List.append_nil] at hall

/-- No leap day follows the last second of February 1900. -/
theorem stamps_ascend_century :
    format ⟨-2203894801, 3600⟩ "Y-m-d H:i:s".toList = "1900-02-28 23:59:59".toList ∧
      format ⟨-2203894800, 3600⟩ "Y-m-d H:i:s".toList = "1900-03-01 00:00:00".toList ∧
      format ⟨-2203894801, 3600⟩ "Y-m-d H:i:s".toList <
        format ⟨-2203894800, 3600⟩ "Y-m-d H:i:s".toList := by
  refine ⟨by decide, by decide, ?_⟩
  have hascend := stamps_ascend.1 3600 (-2203894801) (-2203894800) (by decide)
    ⟨by decide, by decide⟩ ⟨by decide, by decide⟩ "Y-m-d H:i:s".toList (by decide)
  exact hascend.2

end Scaffold.DateFormat
