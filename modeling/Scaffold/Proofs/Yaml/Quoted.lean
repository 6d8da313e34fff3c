import Scaffold.Proofs.Yaml.Characters
import Scaffold.Proofs.Yaml.Gap
import Scaffold.Proofs.Yaml.Indent
import Mathlib.Data.List.Chain
import Mathlib.Tactic.Ring

/-!
Quoted scalars read back. A quoted text is a row of words with gaps between them; what is written
for the characters of a word depends on the kind of quotes (`Writing`), and the gaps stand for
themselves. Main statement: `quotedScalar?_scalar`.
-/

namespace Scaffold.Yaml

open Printer

/-- What is written for the characters of words between quotes of one kind. -/
structure Writing (quote : Char) (write : Char → Text) (isWord : Char → Prop) : Prop where
  read : ∀ ch, isWord ch → ∀ fuel (c : Cursor) rest, c.rest = write ch ++ rest →
    quotedWord? quote (fuel + 1) c =
      (quotedWord? quote fuel (c.skip (write ch).length)).map fun (w, e, d) => (ch :: w, e, d)
  unbroken : ∀ ch, isWord ch → (write ch).any isBreak = false
  starts : ∀ ch, isWord ch → ∃ first rest, write ch = first :: rest ∧ isBlank first = false

/-- Words and the gaps between them, the first and the last of which may stand outside of them. -/
inductive Worded (write : Char → Text) (isWord : Char → Prop) : Text → Prop
  | word (w : Text) (hw : ∀ ch ∈ w, isWord ch) : Worded write isWord w
  | blanks (w r : Text) (n : Nat) (hw : ∀ ch ∈ w, isWord ch) (hblank : write ' ' = [' '])
      (hr : Worded write isWord r) (hhead : ∀ ch, r.head? = some ch → isWord ch) :
      Worded write isWord (w ++ (List.replicate (n + 1) ' ' ++ r))
  | breaks (w r : Text) (b : Char) (bs : Text) (hw : ∀ ch ∈ w, isWord ch) (hb : b ≠ '\n')
      (hbs : (b :: bs).all Gap.isNewline = true) (hwrite : ∀ ch ∈ b :: bs, write ch = [ch])
      (hr : Worded write isWord r) (hhead : ∀ ch, r.head? = some ch → isWord ch) :
      Worded write isWord (w ++ (b :: bs ++ r))

theorem quotedWord?_gap {quote : Char} {fuel : Nat} {c : Cursor} {ch : Char} {rest : Text}
    (hrest : c.rest = ch :: rest) (h : isBlank ch = true ∨ isBreak ch = true) :
    quotedWord? quote (fuel + 1) c = some ([], false, c) := by
  rw [quotedWord?, c.peek_eq hrest]
  simp [h]

/-- Reading goes on behind a word and the gap that follows it. -/
theorem quotedRest?_gap {quote : Char} {fuel : Nat} {w more : Text} {c d e f : Cursor} {g : Gap}
    (hmarker : c.isAtMarker = false) (hpeek : c.peek ≠ none)
    (hword : quotedWord? quote (c.rest.length + 1) c = some (w, false, d))
    (hquote : d.peek ≠ some quote)
    (hgap : Gap.read? 0 d.rest.length ⟨false, [], [], []⟩ d = some (g, e))
    (hmore : quotedRest? quote fuel e = some (more, f)) :
    quotedRest? quote (fuel + 1) c = some (w ++ g.fold ++ more, f) := by
  rw [quotedRest?, if_neg (by simp [hmarker, hpeek])]
  simp only [hword, bind, Option.bind, hquote, if_false, hgap, hmore, pure]

/-- The text of a quoted scalar behind its opening quote, with its lines indented by `n`. -/
def quotedAt (n : Nat) (write : Char → Text) (quote : Char) (t : Text) : Text :=
  indentBy n false (t.flatMap write ++ [quote])

theorem quotedAt_nil (n : Nat) (write : Char → Text) (quote : Char) :
    quotedAt n write quote [] = [quote] := by
  simp [quotedAt, indentBy_false_cons, indentBy]

theorem quotedAt_ne_nil (n : Nat) (write : Char → Text) (quote : Char) (t : Text) :
    quotedAt n write quote t ≠ [] := by
  rw [quotedAt]
  cases h : t.flatMap write ++ [quote] with
  | nil => simp at h
  | cons c rest => simp [indentBy_false_cons]

theorem quotedAt_reads {n : Nat} {write : Char → Text} {quote : Char} {t after : Text} {c : Cursor}
    (hrest : c.rest = quotedAt n write quote t ++ after) (hcolumn : 0 < c.column) :
    c.isAtMarker = false ∧ c.peek ≠ none := by
  constructor
  · have : c.column ≠ 0 := by omega
    simp [Cursor.isAtMarker, this]
  · rw [ne_eq, Cursor.peek, List.head?_eq_none_iff, hrest, List.append_eq_nil_iff]
    exact fun hnil => quotedAt_ne_nil n write quote t hnil.1

theorem flatMap_eq_self {write : Char → Text} {s : Text} (h : ∀ ch ∈ s, write ch = [ch]) :
    s.flatMap write = s := by
  induction s with
  | nil => rfl
  | cons c s ih =>
    rw [List.flatMap_cons, h c (List.mem_cons_self ..),
      ih fun d hd => h d (List.mem_cons_of_mem _ hd)]
    rfl

theorem quotedAt_blanks {write : Char → Text} (hblank : write ' ' = [' ']) (n m : Nat)
    (quote : Char) (r : Text) : quotedAt n write quote (List.replicate m ' ' ++ r) =
      List.replicate m ' ' ++ quotedAt n write quote r := by
  have hsame : ∀ ch ∈ List.replicate m ' ', write ch = [ch] := fun ch hch =>
    List.eq_of_mem_replicate hch ▸ hblank
  rw [quotedAt, quotedAt, List.flatMap_append, List.append_assoc, flatMap_eq_self hsame,
    indentBy_of_no_break n (by simp [List.any_replicate, isBreak])]

section Words

variable {quote : Char} {write : Char → Text} {isWord : Char → Prop}
  (h : Writing quote write isWord)
include h

theorem Writing.flatMap_unbroken {w : Text} (hw : ∀ ch ∈ w, isWord ch) :
    (w.flatMap write).any isBreak = false := by
  rw [List.any_flatMap, List.any_eq_false]
  intro ch hch
  simp [h.unbroken ch (hw ch hch)]

/-- A word is read up to the quote, the blank or the line break behind it. -/
theorem Writing.quotedWord?_word {w rest : Text} {c : Cursor} {fuel : Nat}
    (hw : ∀ ch ∈ w, isWord ch) (hrest : c.rest = w.flatMap write ++ rest)
    (hstop : ∀ fuel (d : Cursor), d.rest = rest →
      quotedWord? quote (fuel + 1) d = some ([], false, d)) (hfuel : w.length < fuel) :
    quotedWord? quote fuel c = some (w, false, c.skip (w.flatMap write).length) := by
  induction w generalizing c fuel with
  | nil =>
    obtain ⟨fuel, rfl⟩ : ∃ k, fuel = k + 1 := ⟨fuel - 1, by omega⟩
    exact hstop fuel c hrest
  | cons ch w ih =>
    rw [List.length_cons] at hfuel
    obtain ⟨fuel, rfl⟩ : ∃ k, fuel = k + 1 := ⟨fuel - 1, by omega⟩
    rw [List.flatMap_cons, List.append_assoc] at hrest
    have hnext : (c.skip (write ch).length).rest = w.flatMap write ++ rest := by simp [hrest]
    rw [h.read ch (hw ch (List.mem_cons_self ..)) _ c _ hrest,
      ih (fun d hd => hw d (List.mem_cons_of_mem _ hd)) hnext (by omega), Option.map_some,
      c.skip_skip, List.flatMap_cons, List.length_append]

theorem Writing.quotedAt_word {w r : Text} (hw : ∀ ch ∈ w, isWord ch) (n : Nat) :
    quotedAt n write quote (w ++ r) = w.flatMap write ++ quotedAt n write quote r := by
  rw [quotedAt, quotedAt, List.flatMap_append, List.append_assoc,
    indentBy_of_no_break n (h.flatMap_unbroken hw)]

theorem Writing.startsWord_quotedAt {r : Text} (hhead : ∀ ch, r.head? = some ch → isWord ch)
    (hquote : isBlank quote = false ∧ isBreak quote = false) (n : Nat) (after : Text) :
    startsWord (quotedAt n write quote r ++ after) := by
  cases r with
  | nil =>
    rw [quotedAt, List.flatMap_nil, List.nil_append, indentBy_false_cons, List.cons_append]
    exact startsWord_cons.mpr hquote
  | cons ch r =>
    have hch := hhead ch rfl
    obtain ⟨first, rest, hwrite, hblank⟩ := h.starts ch hch
    have hbreak := h.unbroken ch hch
    rw [hwrite, List.any_cons, Bool.or_eq_false_iff] at hbreak
    rw [quotedAt, List.flatMap_cons, hwrite, List.cons_append, List.cons_append,
      indentBy_false_cons, List.cons_append]
    exact startsWord_cons.mpr ⟨hblank, hbreak.1⟩

theorem Writing.length_le_flatMap {w : Text} (hw : ∀ ch ∈ w, isWord ch) :
    w.length ≤ (w.flatMap write).length := by
  induction w with
  | nil => exact Nat.le_refl _
  | cons ch w ih =>
    obtain ⟨first, rest, hwrite, _⟩ := h.starts ch (hw ch (List.mem_cons_self ..))
    have := ih fun d hd => hw d (List.mem_cons_of_mem _ hd)
    rw [List.flatMap_cons, hwrite, List.length_append, List.length_cons, List.length_cons]
    omega

theorem Writing.quotedAt_breaks {b : Char} {bs r : Text} (hbs : (b :: bs).all isBreak = true)
    (hwrite : ∀ ch ∈ b :: bs, write ch = [ch]) (hhead : ∀ ch, r.head? = some ch → isWord ch)
    (hquote : isBreak quote = false) (n : Nat) : quotedAt n write quote (b :: bs ++ r) =
      b :: bs ++ (List.replicate n ' ' ++ quotedAt n write quote r) := by
  have hnext : ∃ first rest, r.flatMap write ++ [quote] = first :: rest ∧
      isBreak first = false := by
    cases r with
    | nil => exact ⟨quote, [], rfl, hquote⟩
    | cons ch r =>
      obtain ⟨first, rest, hfirst, _⟩ := h.starts ch (hhead ch rfl)
      have hbreak := h.unbroken ch (hhead ch rfl)
      rw [hfirst, List.any_cons, Bool.or_eq_false_iff] at hbreak
      exact ⟨first, rest ++ r.flatMap write ++ [quote], by simp [hfirst], hbreak.1⟩
  obtain ⟨first, rest, hrest, hfirst⟩ := hnext
  rw [quotedAt, quotedAt, List.flatMap_append, flatMap_eq_self hwrite, List.append_assoc, hrest,
    indentBy_append, indentBy_breaks n false hbs, endsLine_breaks false hbs,
    indentBy_true_cons n hfirst]

theorem Writing.length_le_of_worded {t : Text} (ht : Worded write isWord t) :
    t.length ≤ (t.flatMap write).length := by
  induction ht with
  | word w hw => exact h.length_le_flatMap hw
  | blanks w r m hw hblank hr hhead ih =>
    have hsame : ∀ ch ∈ List.replicate (m + 1) ' ', write ch = [ch] := fun ch hch =>
      List.eq_of_mem_replicate hch ▸ hblank
    have := h.length_le_flatMap hw
    rw [List.flatMap_append, List.flatMap_append, flatMap_eq_self hsame]
    simp only [List.length_append]
    omega
  | breaks w r b bs hw hb hbs hwrite hr hhead ih =>
    have := h.length_le_flatMap hw
    rw [List.flatMap_append, List.flatMap_append, flatMap_eq_self hwrite]
    simp only [List.length_append]
    omega

theorem Writing.exists_word {w rest : Text} {c : Cursor} (hw : ∀ ch ∈ w, isWord ch)
    (hrest : c.rest = w.flatMap write ++ rest) (hstop : ∀ fuel (d : Cursor), d.rest = rest →
      quotedWord? quote (fuel + 1) d = some ([], false, d)) :
    ∃ k, k = (w.flatMap write).length ∧
      quotedWord? quote (c.rest.length + 1) c = some (w, false, c.skip k) ∧
      (c.skip k).rest = rest := by
  refine ⟨_, rfl, h.quotedWord?_word hw hrest hstop ?_, ?_⟩
  · have := h.length_le_flatMap hw
    rw [hrest, List.length_append]
    omega
  · rw [Cursor.skip_rest, hrest, List.drop_left]

/-- Quoted text is read up to its closing quote. -/
theorem Writing.quotedRest?_worded {t : Text} (ht : Worded write isWord t)
    (hquote : isBlank quote = false ∧ isBreak quote = false) {n : Nat} (hn : 0 < n) {after : Text}
    (hstop : ∀ fuel (d : Cursor), d.rest = quote :: after →
      quotedWord? quote (fuel + 1) d = some ([], false, d))
    {c : Cursor} {fuel : Nat} (hrest : c.rest = quotedAt n write quote t ++ after)
    (hcolumn : 0 < c.column) (hfuel : t.length < fuel) :
    ∃ d, quotedRest? quote fuel c = some (t, d) ∧ d.rest = after ∧ c.line ≤ d.line ∧
      (t.any isBreak = false → d = c.skip (t.flatMap write ++ [quote]).length) := by
  induction ht generalizing c fuel with
  | word w hw =>
    obtain ⟨fuel, rfl⟩ : ∃ k, fuel = k + 1 := ⟨fuel - 1, by omega⟩
    obtain ⟨hmarker, hpeek⟩ := quotedAt_reads hrest hcolumn
    rw [← List.append_nil w, h.quotedAt_word hw, quotedAt_nil, List.append_assoc] at hrest
    obtain ⟨k, hk, hword, hskip⟩ := h.exists_word hw hrest hstop
    refine ⟨c.skip (k + 1), ?_, ?_, Nat.le_refl _, by simp [hk]⟩
    · rw [quotedRest?, if_neg (by simp [hmarker, hpeek])]
      simp only [hword, bind, Option.bind, Cursor.peek_eq _ hskip, if_true, pure, c.skip_skip]
    · rw [← c.skip_skip, Cursor.skip_rest, hskip]
      rfl
  | blanks w r m hw hblank hr hhead ih =>
    obtain ⟨fuel, rfl⟩ : ∃ k, fuel = k + 1 := ⟨fuel - 1, by omega⟩
    obtain ⟨hmarker, hpeek⟩ := quotedAt_reads hrest hcolumn
    rw [h.quotedAt_word hw, quotedAt_blanks hblank, List.append_assoc, List.append_assoc] at hrest
    obtain ⟨k, hk, hword, hskip⟩ := h.exists_word hw hrest fun fuel d hd =>
      quotedWord?_gap hd (.inl rfl)
    have hgap : Gap.read? 0 (c.skip k).rest.length ⟨false, [], [], []⟩ (c.skip k) =
        some (⟨false, [] ++ List.replicate (m + 1) ' ', [], []⟩, (c.skip k).skip (m + 1)) :=
      Gap.read?_blanks hskip (h.startsWord_quotedAt hhead hquote n after) (by rw [hskip]; simp)
    have hnext : ((c.skip k).skip (m + 1)).rest = quotedAt n write quote r ++ after := by
      rw [Cursor.skip_rest, hskip, List.drop_left' (List.length_replicate ..)]
    have hspace : ' ' ≠ quote := by
      rintro rfl
      exact absurd hquote.1 (by decide)
    obtain ⟨d, hmore, hafter, hline, hsame⟩ := ih hnext (by simp)
      (show r.length < fuel by simp at hfuel; omega)
    refine ⟨d, ?_, hafter, hline, fun hbreak => ?_⟩
    · rw [quotedRest?_gap hmarker hpeek hword (by simp [Cursor.peek_eq _ hskip, hspace]) hgap
        hmore]
      simp [Gap.fold]
    · have hflat : (List.replicate (m + 1) ' ').flatMap write = List.replicate (m + 1) ' ' :=
        flatMap_eq_self fun ch hch => List.eq_of_mem_replicate hch ▸ hblank
      rw [List.any_append, List.any_append, Bool.or_eq_false_iff, Bool.or_eq_false_iff] at hbreak
      rw [hsame hbreak.2.2, c.skip_skip, c.skip_skip, hk, List.flatMap_append, List.flatMap_append,
        hflat]
      simp only [List.length_append, List.length_replicate, Nat.add_assoc]
  | breaks w r b bs hw hb hbs hwrite hr hhead ih =>
    obtain ⟨fuel, rfl⟩ : ∃ k, fuel = k + 1 := ⟨fuel - 1, by omega⟩
    obtain ⟨hmarker, hpeek⟩ := quotedAt_reads hrest hcolumn
    have hbreaks := Gap.all_isBreak hbs
    rw [h.quotedAt_word hw, h.quotedAt_breaks hbreaks hwrite hhead hquote.2, List.append_assoc,
      List.append_assoc, List.append_assoc] at hrest
    have hnewline := List.all_eq_true.mp hbs b (List.mem_cons_self ..)
    obtain ⟨k, hk, hword, hskip⟩ := h.exists_word hw hrest fun fuel d hd =>
      quotedWord?_gap hd (.inr (Gap.isBreak_of_isNewline hnewline).1)
    have hgap : Gap.read? 0 (c.skip k).rest.length ⟨false, [], [], []⟩ (c.skip k) = _ :=
      Gap.read?_lines hbs hskip (h.startsWord_quotedAt hhead hquote n after)
        (by
          rw [hskip]
          simp only [List.length_append, List.length_cons, List.length_replicate]
          omega)
    have hquote' : b ≠ quote := by
      rintro rfl
      rw [(Gap.isBreak_of_isNewline hnewline).1] at hquote
      cases hquote.2
    obtain ⟨d, hmore, hafter, hline, _⟩ := ih (c := ⟨_, _, _, _⟩) rfl hn
      (show r.length < fuel by simp at hfuel; omega)
    refine ⟨d, ?_, hafter, ?_, fun hbreak => ?_⟩
    · rw [quotedRest?_gap hmarker hpeek hword (by simp [Cursor.peek_eq _ hskip, hquote']) hgap
        hmore]
      simp [Gap.fold, hb]
    · simp at hline
      omega
    · have := List.all_eq_true.mp hbreaks b (List.mem_cons_self ..)
      simp [this] at hbreak

end Words

/-! ## Single quotes -/

/-- Between single quotes a quote is written twice. -/
def doubled (c : Char) : Text := if c = '\'' then ['\'', '\''] else [c]

def IsInk (c : Char) : Prop := isBlank c = false ∧ isBreak c = false

theorem writing_doubled : Writing '\'' doubled IsInk where
  read ch hch fuel c rest hrest := by
    by_cases hquote : ch = '\''
    · subst hquote
      have hnext : c.peekAt 1 = some '\'' := by simp [Cursor.peekAt, hrest, doubled]
      rw [quotedWord?, c.peek_eq hrest]
      simp only [hch.1, hch.2, hnext, Bool.or_self, Bool.false_eq_true, if_false, and_self, if_true]
      change _ = (quotedWord? '\'' fuel (c.skip 2)).map _
      cases quotedWord? '\'' fuel (c.skip 2) <;> rfl
    · rw [doubled, if_neg hquote] at hrest ⊢
      rw [quotedWord?, c.peek_eq hrest]
      simp only [hch.1, hch.2, hquote, Bool.or_self, Bool.false_eq_true, if_false, false_and,
        Char.reduceEq, and_false]
      change _ = (quotedWord? '\'' fuel (c.skip 1)).map _
      cases quotedWord? '\'' fuel (c.skip 1) <;> rfl
  unbroken ch hch := by
    rw [doubled]
    split <;> simp_all [IsInk]
  starts ch hch := by
    rw [doubled]
    split
    · exact ⟨'\'', ['\''], rfl, rfl⟩
    · exact ⟨ch, [], rfl, hch.1⟩

theorem isChain_of_meet {p q : Char → Bool} {t : Text} (h : meet p q t = false) :
    t.IsChain fun a b => p a = true → q b = false := by
  induction t with
  | nil => exact .nil
  | cons a t ih =>
    cases t with
    | nil => exact .singleton a
    | cons b t =>
      simp only [meet, List.tail_cons, List.zip_cons_cons, List.any_cons, Bool.or_eq_false_iff]
        at h ih
      refine .cons_cons (fun hp => ?_) (ih h.2)
      simpa [hp] using h.1

/-- Texts whose blanks and line breaks may stand between single quotes. -/
structure IsQuotable (t : Text) : Prop where
  blank : ∀ c ∈ t, isBlank c = true → c = ' '
  newline : ∀ c ∈ t, isBreak c = true → c ≠ '\n' ∧ Gap.isNewline c = true
  before : t.IsChain fun a b => isSpace a = true → isBreak b = false
  behind : t.IsChain fun a b => isBreak a = true → isSpace b = false

theorem isQuotable_of_admits {t : Text} (hline : '\n' ∉ t) (h : admitsSingleQuotes t = true) :
    IsQuotable t := by
  simp only [admitsSingleQuotes, writable, Bool.and_eq_true, Bool.not_eq_true'] at h
  obtain ⟨⟨hprintable, hbefore⟩, hbehind⟩ := h
  rw [List.all_eq_true] at hprintable
  exact ⟨fun c hc => eq_space_of_isPrintable (hprintable c hc),
    fun c hc hbreak =>
      ⟨fun heq => hline (heq ▸ hc), isNewline_of_isPrintable (hprintable c hc) hbreak⟩,
    isChain_of_meet hbefore, isChain_of_meet hbehind⟩

theorem IsQuotable.suffix {s t : Text} (h : IsQuotable (s ++ t)) : IsQuotable t :=
  ⟨fun c hc => h.blank c (List.mem_append_right s hc),
    fun c hc => h.newline c (List.mem_append_right s hc),
    h.before.right_of_append, h.behind.right_of_append⟩

/-- The character behind a run is in the relation to the last one of the run. -/
theorem chain_at {R : Char → Char → Prop} {s r : Text} {c : Char} (h : (s ++ r).IsChain R)
    (hs : s ≠ []) (hc : r.head? = some c) : ∃ b ∈ s, R b c := by
  cases r with
  | nil => cases hc
  | cons d r =>
    cases hc
    exact ⟨_, List.getLast_mem hs, h.rel_getLast_head_of_append hs (List.cons_ne_nil c r)⟩

theorem IsQuotable.isInk {t : Text} (h : IsQuotable t) {c : Char} (hc : c ∈ t) (hspace : c ≠ ' ')
    (hbreak : isBreak c = false) : IsInk c := by
  refine ⟨?_, hbreak⟩
  rw [← Bool.not_eq_true]
  exact fun hblank => hspace (h.blank c hc hblank)

/-- Behind the spaces of a run stands a word. -/
theorem IsQuotable.isInk_of_spaces {s r : Text} (h : IsQuotable (s ++ r)) (hne : s ≠ [])
    (hs : ∀ b ∈ s, isSpace b = true) (hr : r.head? ≠ some ' ') {c : Char}
    (hc : r.head? = some c) : IsInk c := by
  obtain ⟨b, hb, hbreak⟩ := chain_at h.before hne hc
  exact h.suffix.isInk (List.mem_of_head? hc) (fun heq => hr (heq ▸ hc)) (hbreak (hs b hb))

/-- Behind the line breaks of a run stands a word. -/
theorem IsQuotable.isInk_of_breaks {s r : Text} (h : IsQuotable (s ++ r)) (hne : s ≠ [])
    (hs : ∀ b ∈ s, isBreak b = true) (hr : ∀ c, r.head? = some c → isBreak c = false) {c : Char}
    (hc : r.head? = some c) : IsInk c := by
  obtain ⟨b, hb, hspace⟩ := chain_at h.behind hne hc
  have hother : c ≠ ' ' := by
    rintro rfl
    cases hspace (hs b hb)
  exact h.suffix.isInk (List.mem_of_head? hc) hother (hr c hc)

theorem IsQuotable.worded {t : Text} (h : IsQuotable t) : Worded doubled IsInk t := by
  induction hn : t.length using Nat.strongRecOn generalizing t with
  | _ n ih =>
    obtain ⟨w, rest, rfl, hw, hrest⟩ := exists_run (fun c => !isBlank c && !isBreak c) t
    have hink : ∀ c ∈ w, IsInk c := fun c hc => by
      simpa [IsInk] using List.all_eq_true.mp hw c hc
    cases rest with
    | nil =>
      rw [List.append_nil]
      exact .word w hink
    | cons c rest =>
      have hrun : IsQuotable (c :: rest) := h.suffix
      by_cases hblank : isBlank c = true
      · obtain rfl := h.blank c (by simp) hblank
        obtain ⟨m, r, rfl, hr⟩ := exists_blanks rest
        rw [← List.cons_append, ← List.replicate_succ] at hrun ⊢
        have hspaces : ∀ b ∈ List.replicate (m + 1) ' ', isSpace b = true :=
          fun b hb => List.eq_of_mem_replicate hb ▸ rfl
        exact .blanks w r m hink rfl (ih _ (by simp at hn; omega) hrun.suffix rfl)
          fun c hc => hrun.isInk_of_spaces (by simp) hspaces hr hc
      · have hbreak : isBreak c = true := by
          have := hrest c rfl
          simpa [hblank] using this
        obtain ⟨s, r, rfl, hs, hr⟩ := exists_run isBreak rest
        rw [← List.cons_append] at hrun ⊢
        have hbreaks : ∀ b ∈ c :: s, isBreak b = true := by
          rw [List.forall_mem_cons]
          exact ⟨hbreak, List.all_eq_true.mp hs⟩
        have hnewline : ∀ b ∈ c :: s, b ≠ '\n' ∧ Gap.isNewline b = true := fun b hb =>
          hrun.newline b (List.mem_append_left r hb) (hbreaks b hb)
        refine .breaks w r c s hink (hnewline c (List.mem_cons_self ..)).1
          (List.all_eq_true.mpr fun b hb => (hnewline b hb).2) (fun b hb => ?_)
          (ih _ (by simp at hn; omega) hrun.suffix rfl)
          fun d hd => hrun.isInk_of_breaks (by simp) hbreaks hr hd
        have hquote : b ≠ '\'' := by
          rintro rfl
          cases hbreaks _ hb
        rw [doubled, if_neg hquote]

/-! ## Double quotes -/

theorem hexText_succ (width n : Nat) :
    hexText (width + 1) n = (Data.hexDigit (n / 16 ^ width)).toUpper :: hexText width n := by
  rw [hexText, List.range_succ, List.reverse_append, List.map_append]
  rfl

theorem length_hexText (width n : Nat) : (hexText width n).length = width := by
  simp [hexText]

theorem hexValue?_hexDigit (n : Nat) : hexValue? (Data.hexDigit n).toUpper = some (n % 16) := by
  have hdigit : ∀ k < 16, hexValue? ((Nat.toDigits 16 k).headD '0').toUpper = some k := by
    decide +kernel
  exact hdigit _ (Nat.mod_lt _ (by decide))

theorem foldlM_hexText (width n acc : Nat) :
    (hexText width n).foldlM (fun n c => (hexValue? c).map (16 * n + ·)) acc =
      some (acc * 16 ^ width + n % 16 ^ width) := by
  induction width generalizing acc with
  | zero => simp [hexText, Nat.mod_one]
  | succ width ih =>
    rw [hexText_succ, List.foldlM_cons, hexValue?_hexDigit, Option.map_some]
    change List.foldlM _ (16 * acc + n / 16 ^ width % 16) _ = _
    rw [ih, Nat.pow_succ, Nat.mod_mul]
    congr 1
    ring

theorem hexEscape?_hexText {width : Nat} {c : Char} (h : c.toNat < 16 ^ width) (rest : Text) :
    hexEscape? width (hexText width c.toNat ++ rest) = some (c, width + 2) := by
  have htake : (hexText width c.toNat ++ rest).take width = hexText width c.toNat :=
    List.take_left' (length_hexText _ _)
  have hvalid : c.toNat.isValidChar := c.valid
  rw [hexEscape?, htake]
  simp only [length_hexText, Nat.lt_irrefl, if_false, foldlM_hexText, Nat.zero_mul, Nat.zero_add,
    Nat.mod_eq_of_lt h, bind, Option.bind, hvalid, if_true, pure, Char.ofNat_toNat]

theorem escape?_of_lookup {name c : Char} (hname : name ∉ ['x', 'u', 'U'])
    (h : escapes.lookup name = some c) (rest : Text) :
    escape? ('\\' :: name :: rest) = some (c, 2) := by
  simp only [List.mem_cons, List.not_mem_nil, or_false, not_or] at hname
  rw [escape?, h]
  · rfl
  · exact hname.1
  · exact hname.2.1
  · exact hname.2.2

/-- A character stands for itself, or an escape that is read as the character stands for it. -/
theorem escaped_cases (c : Char) :
    (escaped c = [c] ∧ isPlainChar c = true ∧ c ≠ '"' ∧ c ≠ '\\') ∨
    ∃ d e, escaped c = '\\' :: d :: e ∧ isBreak d = false ∧
      ∀ rest, escape? (escaped c ++ rest) = some (c, (escaped c).length) := by
  rw [escaped]
  split
  · next h =>
    simp only [Bool.and_eq_true, bne_iff_ne] at h
    exact .inl ⟨rfl, by simp [isPlainChar, h.1.1.1, by simpa using h.1.1.2], h.1.2, h.2⟩
  · right
    split
    · next name x hfind =>
      obtain ⟨hchar, hname, hlookup⟩ := escape_of_find? hfind
      simp only [isPlainChar, Bool.and_eq_true, Bool.not_eq_true'] at hchar
      exact ⟨name, [], rfl, hchar.2, escape?_of_lookup hname hlookup⟩
    · split
      · next h =>
        refine ⟨'x', _, rfl, rfl, fun rest => ?_⟩
        simpa [length_hexText, escape?] using hexEscape?_hexText (by simpa using h) rest
      · split
        · next h =>
          refine ⟨'u', _, rfl, rfl, fun rest => ?_⟩
          simpa [length_hexText, escape?] using hexEscape?_hexText (by simpa using h) rest
        · have hbound : c.toNat < 16 ^ 8 := by
            have : c.toNat < 0x110000 := by
              obtain h | h := c.valid
              · exact Nat.lt_trans h (by decide)
              · exact h.2
            omega
          refine ⟨'U', _, rfl, rfl, fun rest => ?_⟩
          simpa [length_hexText, escape?] using hexEscape?_hexText hbound rest

theorem writing_escaped : Writing '"' escaped (· ≠ ' ') where
  read ch hch fuel c rest hrest := by
    obtain ⟨hself, hplain, hquote, hslash⟩ | ⟨d, e, hescaped, hbreak, hread⟩ := escaped_cases ch
    · have hblank : isBlank ch = false := by
        rw [← Bool.not_eq_true]
        intro h
        simp only [isPlainChar, Bool.and_eq_true] at hplain
        exact hch (eq_space_of_isPrintable hplain.1 h)
      simp only [isPlainChar, Bool.and_eq_true, Bool.not_eq_true'] at hplain
      rw [hself] at hrest ⊢
      rw [quotedWord?, c.peek_eq hrest]
      simp only [hblank, hplain.2, hquote, hslash, Bool.or_self, Bool.false_eq_true, if_false,
        false_and]
      change _ = (quotedWord? '"' fuel (c.skip 1)).map _
      cases quotedWord? '"' fuel (c.skip 1) <;> rfl
    · have hread := hread rest
      rw [← hrest] at hread
      have hnext : c.peekAt 1 = some d := by simp [Cursor.peekAt, hrest, hescaped]
      have hslash : c.peek = some '\\' := c.peek_eq (by rw [hrest, hescaped]; rfl)
      rw [quotedWord?, hslash]
      simp only [hnext, hread, hbreak, Option.any_some, show isBlank '\\' = false from rfl,
        show isBreak '\\' = false from rfl, Bool.or_self, Bool.false_eq_true, if_false,
        Char.reduceEq, false_and, and_self, if_true, bind, Option.bind]
      cases quotedWord? '"' fuel (c.skip (escaped ch).length) <;> rfl
  unbroken ch hch := by
    rw [List.any_eq_false]
    intro c hc
    have := List.all_eq_true.mp (escaped_isPlainChar ch) c hc
    simp_all [isPlainChar]
  starts ch hch := by
    obtain ⟨hself, hplain, _⟩ | ⟨d, e, hescaped, _⟩ := escaped_cases ch
    · refine ⟨ch, [], hself, ?_⟩
      rw [← Bool.not_eq_true]
      intro h
      simp only [isPlainChar, Bool.and_eq_true] at hplain
      exact hch (eq_space_of_isPrintable hplain.1 h)
    · exact ⟨'\\', d :: e, hescaped, rfl⟩

theorem worded_escaped (t : Text) : Worded escaped (· ≠ ' ') t := by
  induction hn : t.length using Nat.strongRecOn generalizing t with
  | _ n ih =>
    obtain ⟨w, rest, rfl, hw, hrest⟩ := exists_run (fun c => !isSpace c) t
    have hword : ∀ c ∈ w, c ≠ ' ' := fun c hc => by
      simpa [isSpace] using List.all_eq_true.mp hw c hc
    cases rest with
    | nil =>
      rw [List.append_nil]
      exact .word w hword
    | cons c rest =>
      obtain rfl : c = ' ' := by simpa [isSpace] using hrest c rfl
      obtain ⟨m, r, rfl, hr⟩ := exists_blanks rest
      rw [← List.cons_append, ← List.replicate_succ]
      exact .blanks w r m hword (by decide +kernel) (ih r.length (by simp at hn; omega) r rfl)
        fun c hc heq => hr (heq ▸ hc)

/-! ## Quoted scalars -/

/-- The text of a scalar in quotes, as it is written and as it is read. -/
theorem quotedScalar?_eq {quote : Char} {write : Char → Text} {isWord : Char → Prop} {t : Text}
    (h : Writing quote write isWord) (ht : Worded write isWord t)
    (hquote : isBlank quote = false ∧ isBreak quote = false) {n : Nat} (hn : 0 < n) {after : Text}
    (hstop : ∀ fuel (d : Cursor), d.rest = quote :: after →
      quotedWord? quote (fuel + 1) d = some ([], false, d)) {c : Cursor}
    (hrest : c.rest = indentBy n false (quote :: t.flatMap write ++ [quote]) ++ after) :
    ∃ d, quotedScalar? quote c = some (t, d) ∧ d.rest = after ∧ c.line ≤ d.line ∧
      (t.any isBreak = false → d = c.skip (quote :: t.flatMap write ++ [quote]).length) := by
  have hnext : (c.skip 1).rest = quotedAt n write quote t ++ after := by
    rw [Cursor.skip_rest, hrest, List.cons_append, indentBy_false_cons, hquote.2]
    rfl
  have hlength : t.length < c.rest.length + 1 := by
    have hwritten := h.length_le_of_worded ht
    have hindent := length_le_indentBy n false (quote :: t.flatMap write ++ [quote])
    rw [hrest, List.length_append]
    simp only [List.length_append, List.length_cons] at hindent
    omega
  obtain ⟨d, hread, hafter, hline, hsame⟩ :=
    h.quotedRest?_worded ht hquote hn hstop hnext (by simp) hlength
  refine ⟨d, hread, hafter, hline, fun hbreak => ?_⟩
  rw [hsame hbreak, c.skip_skip]
  simp [Nat.add_comm]

theorem quotedWord?_quote {quote : Char} {after : Text} (hquote : quote = '\'' ∨ quote = '"')
    (hafter : after.head? ≠ some '\'') (fuel : Nat) (d : Cursor) (hrest : d.rest = quote :: after) :
    quotedWord? quote (fuel + 1) d = some ([], false, d) := by
  have hnext : d.peekAt 1 ≠ some '\'' := by
    rw [Cursor.peekAt, hrest]
    simpa [List.head?_eq_getElem?] using hafter
  rw [quotedWord?, d.peek_eq hrest]
  obtain rfl | rfl := hquote <;> simp [hnext, isBlank, isBreak]

/-- A scalar that is written in quotes is read back, whatever the lines of it are indented by. -/
theorem quotedScalar?_scalar {t : Text}
    (hstyle : Style.of t = .singleQuoted ∨ Style.of t = .doubleQuoted) {n : Nat} (hn : 0 < n)
    {after : Text} (hafter : after.head? ≠ some '\'') {c : Cursor}
    (hrest : c.rest = indentBy n false (scalar t) ++ after) :
    ∃ quote, (quote = '\'' ∨ quote = '"') ∧ (∃ rest, c.rest = quote :: rest) ∧
      ∃ d, quotedScalar? quote c = some (t, d) ∧ d.rest = after ∧ c.line ≤ d.line ∧
        (t.any isBreak = false → d = c.skip (scalar t).length) := by
  have hstart : ∀ (q : Char) (x : Text), isBreak q = false →
      ∃ rest, indentBy n false (q :: x) ++ after = q :: rest := fun q x hq => by
    rw [indentBy_false_cons, List.cons_append]
    exact ⟨_, rfl⟩
  obtain hstyle | hstyle := hstyle
  · have hscalar : scalar t = '\'' :: t.flatMap doubled ++ ['\''] := by
      rw [scalar, hstyle]
      rfl
    obtain ⟨hline, hadmits⟩ := admits_of_singleQuoted hstyle
    rw [hscalar] at hrest ⊢
    exact ⟨'\'', .inl rfl, hrest ▸ hstart '\'' _ rfl,
      quotedScalar?_eq writing_doubled (isQuotable_of_admits hline hadmits).worded ⟨rfl, rfl⟩ hn
        (quotedWord?_quote (.inl rfl) hafter) hrest⟩
  · have hscalar : scalar t = '"' :: t.flatMap escaped ++ ['"'] := by
      rw [scalar, hstyle]
    rw [hscalar] at hrest ⊢
    exact ⟨'"', .inr rfl, hrest ▸ hstart '"' _ rfl,
      quotedScalar?_eq writing_escaped (worded_escaped t) ⟨rfl, rfl⟩ hn
        (quotedWord?_quote (.inr rfl) hafter) hrest⟩

end Scaffold.Yaml
