import Scaffold.Proofs.Yaml.Literal
import Scaffold.Proofs.Yaml.Plain
import Scaffold.Proofs.Yaml.Quoted
import Scaffold.Proofs.Yaml.Scan

/-!
Single tokens, each from the place in front of it to the place in front of the next. Main
statements: the scalars and the empty collections that stand as values (`passes_plain`,
`passes_quoted`, `passes_literal`, `passes_brackets`).
-/

namespace Scaffold.Yaml.Scanner

open Relation Printer

/-- The place behind some tokens, outside of brackets. -/
def next (s : Scanner) (c : Cursor) (ts : List Token) : Scanner :=
  { s with cursor := c, tokens := s.tokens ++ ts, keyAllowed := true, keys := [none] }

theorem isAtMarker_of_column {c : Cursor} (h : 0 < c.column) : c.isAtMarker = false := by
  have : c.column ≠ 0 := by omega
  simp [Cursor.isAtMarker, this]

theorem isAtMarker_of_head {c : Cursor} {ch : Char} {t : Text} (h : c.rest = ch :: t)
    (hch : ch ≠ '-' ∧ ch ≠ '.') : c.isAtMarker = false := by
  simp [Cursor.isAtMarker, h, hch]

/-! ## The beginnings of tokens -/

section FetchAt

variable {s : Scanner}

theorem fetchAt?_quote {q : Char} (hq : q = '\'' ∨ q = '"') (hmarker : s.cursor.isAtMarker = false) :
    s.fetchAt? q = s.fetchQuoted? q := by
  obtain rfl | rfl := hq <;> simp [fetchAt?, hmarker]

theorem fetchAt?_literal (hflow : s.inFlow = false) (hmarker : s.cursor.isAtMarker = false) :
    s.fetchAt? '|' = s.fetchBlockScalar? true := by
  simp [fetchAt?, hmarker, hflow]

theorem fetchAt?_entry (hmarker : s.cursor.isAtMarker = false)
    (hgap : isGap (s.cursor.peekAt 1) = true) : s.fetchAt? '-' = s.fetchBlockEntry? := by
  simp [fetchAt?, hmarker, hgap]

theorem fetchAt?_key (hmarker : s.cursor.isAtMarker = false)
    (hgap : isGap (s.cursor.peekAt 1) = true) : s.fetchAt? '?' = s.fetchKey? := by
  simp [fetchAt?, hmarker, hgap]

theorem fetchAt?_value (hmarker : s.cursor.isAtMarker = false)
    (hgap : isGap (s.cursor.peekAt 1) = true) : s.fetchAt? ':' = s.fetchValue? := by
  simp [fetchAt?, hmarker, hgap]

/-- The first character of a text that may stand without quotes is no mark by itself. -/
theorem admitsPlain_cons {c : Char} {t : Text} (h : admitsPlain (c :: t) = true) :
    isPlainChar c = true ∧ c ≠ ' ' ∧ c ∉ ",[]\x7b\x7d#&*!|>'\"%@`".toList ∧
      (c = '-' ∨ c = '?' ∨ c = ':' → t.head?.all endsWord = false) := by
  simp only [admitsPlain, admitsSingleQuotes, writable, startsAsMarkup, hasMark, Bool.and_eq_true,
    Bool.not_eq_true', Bool.or_eq_false_iff, List.any_cons, List.all_cons, List.head?_cons,
    Option.any_some, List.tail_cons, bne_iff_ne, Bool.and_true] at h
  obtain ⟨⟨⟨⟨⟨⟨⟨⟨hprint, _⟩, _⟩, _⟩, hbreak, _⟩, hspace⟩, _⟩, ⟨⟨hmarkup, hmark⟩, _⟩, _⟩,
    ⟨hcolon, hnumber⟩, _⟩ := h
  refine ⟨by simp [isPlainChar, hprint, hbreak], by simpa using hspace, ?_, ?_⟩
  · have : c ≠ '#' := by simpa using hnumber
    simpa [this] using hmarkup
  · rintro (rfl | rfl | rfl)
    · simpa using hmark
    · simpa using hmark
    · simpa using hcolon

theorem fetchAt?_plain {c : Char} {t after : Text} (h : admitsPlain (c :: t) = true)
    (hrest : s.cursor.rest = c :: t ++ after) (hflow : s.inFlow = false)
    (hmarker : s.cursor.isAtMarker = false) : s.fetchAt? c = s.fetchPlain? := by
  obtain ⟨hplain, hspace, hmem, hgap⟩ := admitsPlain_cons h
  have hnext : s.cursor.peekAt 1 = (t ++ after).head? := by
    rw [Cursor.peekAt, hrest, List.head?_eq_getElem?]
    rfl
  have hgap' : c = '-' ∨ c = '?' ∨ c = ':' → isGap (s.cursor.peekAt 1) = false := fun hc => by
    rw [hnext]
    exact isGap_of_endsWord (hgap hc) after
  have hbegins : s.beginsPlain c = true := by
    have hblank : isBlank c = false := by
      simp [isBlank, hspace, (ne_of_isPlainChar hplain).2.1]
    by_cases hmark : c = '-' ∨ c = '?' ∨ c = ':'
    · have hword : isGap (s.cursor.peekAt 1) = false := hgap' hmark
      have hink : (s.cursor.peekAt 1).any isBlank = false := by
        cases hpeek : s.cursor.peekAt 1 with
        | none => rfl
        | some d =>
          rw [hpeek] at hword
          exact (Bool.or_eq_false_iff.mp hword).1
      obtain rfl | rfl | rfl := hmark <;> simp only [beginsPlain, hflow, hword, hink] <;> decide
    · have hindicator : isIndicator c = false := by
        simp only [not_or] at hmark
        simpa [isIndicator, hmark] using hmem
      simp [beginsPlain, hindicator, hblank]
  have hmarks : ∀ d, (d = '-' ∨ d = '?' ∨ d = ':') →
      ¬ (c = d ∧ isGap (s.cursor.peekAt 1) = true) := by
    rintro d hd ⟨rfl, hgap⟩
    rw [hgap' hd] at hgap
    cases hgap
  simp at hmem
  simp [fetchAt?, hmarker, hflow, hmem, hbegins, hmarks]

end FetchAt

/-! ## Values on one line, and those in quotes or with a mark of their own -/

theorem closeBlocks_cursor (column : Int) (fuel : Nat) (s : Scanner) :
    (closeBlocks column fuel s).cursor = s.cursor := by
  induction fuel generalizing s with
  | zero => rfl
  | succ fuel ih =>
    rw [closeBlocks]
    split
    · cases s.outerIndents with
      | nil => rfl
      | cons => exact ih _
    · rfl

theorem unindent_cursor (s : Scanner) (column : Int) : (s.unindent column).cursor = s.cursor := by
  rw [unindent]
  split
  · rfl
  · exact closeBlocks_cursor column _ s

/-- From `s` on some tokens are read, up to a word in one of the next lines. They are added to
those of `base`, and collections that the word is not in are closed. -/
def Leads (s base : Scanner) (ts : List Token) (m : Nat) (tok : Text) : Prop :=
  ∃ c : Cursor, c.rest = tok ∧ c.column = m ∧ Reaches s ((base.next c ts).unindent m)

def Passes (s : Scanner) (ts : List Token) (m : Nat) (tok : Text) : Prop := Leads s s ts m tok

theorem steps_of_fetch {s r b : Scanner} {ch : Char} {t : Text} (hrest : s.cursor.rest = ch :: t)
    (hfetch : s.fetchAt? ch = some r) (hready : r.ready? = some b)
    (hlength : b.cursor.rest.length ≤ t.length) : Steps s b := by
  refine ⟨ch, r, s.cursor.peek_eq hrest, hfetch, hready, ?_⟩
  rw [hrest, List.length_cons]
  omega

theorem passes_of_steps {s r : Scanner} {c : Cursor} {ts : List Token} {m : Nat} {tok : Text}
    (hrest : c.rest = tok) (hcolumn : c.column = m) (h : Reaches s r)
    (hstep : Steps r ((s.next c ts).unindent m)) : Passes s ts m tok :=
  ⟨c, hrest, hcolumn, h.tail hstep⟩

/-- The marks around an empty collection. -/
inductive Brackets : Char → Char → Token → Token → Prop
  | sequence : Brackets '[' ']' .flowSequenceStart .flowSequenceEnd
  | mapping : Brackets '{' '}' .flowMappingStart .flowMappingEnd

theorem Brackets.fetchAt?_open {a z : Char} {start stop : Token} (h : Brackets a z start stop)
    {s : Scanner} (hmarker : s.cursor.isAtMarker = false) : s.fetchAt? a = s.openFlow? start := by
  cases h <;> simp [fetchAt?, hmarker]

theorem Brackets.fetchAt?_close {a z : Char} {start stop : Token} (h : Brackets a z start stop)
    {s : Scanner} (hmarker : s.cursor.isAtMarker = false) : s.fetchAt? z = s.closeFlow? stop := by
  cases h <;> simp [fetchAt?, hmarker]

section Value

variable {s : Scanner}

/-- A place that may begin a key, and need not. -/
theorem saveKey?_of_ne (hkeys : s.keys = [none]) (h : s.indent ≠ s.cursor.column) :
    ∃ o, s.saveKey? = some { s with keys := [o] } ∧ ∀ k, o = some k →
      k.required = false ∧ k.index = s.cursor.index ∧ k.line = s.cursor.line := by
  have hrequired : (!s.inFlow && s.indent == s.cursor.column) = false := by simp [h]
  rw [saveKey?, hrequired]
  obtain ⟨cursor, tokens, indent, outer, allowed, keys⟩ := s
  obtain rfl := hkeys
  cases allowed with
  | false => exact ⟨none, rfl, nofun⟩
  | true => exact ⟨_, rfl, by rintro k ⟨⟩; exact ⟨rfl, rfl, rfl⟩⟩

variable (hkeys : s.keys = [none]) {i m : Nat} (hindent : s.indent = i)
  (hcolumn : i < s.cursor.column) (hm : m ≤ i) {tok : Text} (htok : startsToken tok)
include hkeys hindent hcolumn hm htok

theorem passes_plain {t : Text} (h : admitsPlain t = true) (hne : t ≠ [])
    (hrest : s.cursor.rest = t ++ '\n' :: (List.replicate m ' ' ++ tok)) :
    Passes s [.scalar true t] m tok := by
  obtain ⟨o, hsave, hfree⟩ := saveKey?_of_ne hkeys (by omega)
  have hmarker : s.cursor.isAtMarker = false := isAtMarker_of_column (by omega)
  have hread := plainScalar?_value (i + 1) (s.cursor.rest.length + 1)
    (isPlain_of_admitsPlain h hne) hrest (startsWord_of_startsToken htok) hmarker (by omega)
    (by omega) (by rw [hrest, List.length_append]; omega)
  obtain ⟨c, t, rfl⟩ := List.exists_cons_of_ne_nil hne
  have hflow : s.inFlow = false := by simp [inFlow, hkeys]
  have hfetch : s.fetchAt? c = some ({ s with
      cursor := ⟨tok, s.cursor.index + (c :: t).length + 1 + m, s.cursor.line + 1, m⟩
      keyAllowed := true, keys := [o] }.emit (.scalar true (c :: t))) := by
    have hnat : (s.indent + 1).toNat = i + 1 := by omega
    rw [fetchAt?_plain h hrest hflow hmarker, fetchPlain?, hsave]
    simp only [bind, Option.bind, hnat]
    rw [show inFlow { s with keys := [o] } = false from rfl, hread]
    rfl
  have hready := ready?_passed (o := o) (s := { s with
      cursor := ⟨tok, s.cursor.index + (c :: t).length + 1 + m, s.cursor.line + 1, m⟩
      keyAllowed := true, keys := [o] }.emit (.scalar true (c :: t))) htok rfl fun k hk =>
        ⟨(hfree k hk).1, (hfree k hk).2.2 ▸ Nat.lt_succ_self _⟩
  have hlength : tok.length ≤ (t ++ '\n' :: (List.replicate m ' ' ++ tok)).length := by
    simp only [List.length_append, List.length_cons]
    omega
  refine passes_of_steps rfl rfl .refl (steps_of_fetch hrest hfetch hready ?_)
  rw [unindent_cursor]
  exact hlength

theorem passes_quoted {t : Text} (hstyle : Style.of t = .singleQuoted ∨ Style.of t = .doubleQuoted)
    (hrest : s.cursor.rest =
      indentBy (i + 2) false (scalar t) ++ '\n' :: (List.replicate m ' ' ++ tok)) :
    Passes s [.scalar false t] m tok := by
  obtain ⟨o, hsave, hfree⟩ := saveKey?_of_ne hkeys (by omega)
  have hmarker : s.cursor.isAtMarker = false := isAtMarker_of_column (by omega)
  obtain ⟨q, hq, ⟨rest, hstart⟩, d, hread, hafter, hline, _⟩ :=
    quotedScalar?_scalar hstyle (Nat.succ_pos _) (by simp) hrest
  have hfetch : s.fetchAt? q = some ({ s with
      cursor := d, keyAllowed := false, keys := [o] }.emit (.scalar false t)) := by
    rw [fetchAt?_quote hq hmarker, fetchQuoted?, hsave]
    simp only [bind, Option.bind, hread]
    rfl
  have hready := ready?_line (s := { s with cursor := d, keyAllowed := false, keys := [o] }.emit
    (.scalar false t)) hafter htok rfl fun k hk =>
      ⟨(hfree k hk).1, (hfree k hk).2.2 ▸ hline⟩
  refine passes_of_steps rfl rfl .refl (steps_of_fetch hstart hfetch hready ?_)
  have hlength : tok.length ≤ rest.length := by
    have := congrArg List.length (hrest.symm.trans hstart)
    simp only [List.length_append, List.length_cons] at this
    omega
  rw [unindent_cursor]
  exact hlength

theorem passes_literal {t : Text} (hstyle : Style.of t = .literal)
    (hrest : s.cursor.rest = '|' :: (indentMark t ++ chompMark t ++
      '\n' :: (indentBy (i + 2) true (endLine t) ++ (List.replicate m ' ' ++ tok)))) :
    Passes s [.scalar false t] m tok := by
  have hmarker : s.cursor.isAtMarker = false := isAtMarker_of_column (by omega)
  have hflow : s.inFlow = false := by simp [inFlow, hkeys]
  obtain ⟨d, hread, rfl, rfl, hline⟩ := blockScalar?_scalar hstyle (show m < i + 2 by omega)
    (startsWord_of_startsToken htok) (c := s.cursor.skip 1) (by rw [Cursor.skip_rest, hrest]; rfl)
  have hfetch : s.fetchAt? '|' =
      some ({ s with cursor := d, keyAllowed := true }.emit (.scalar false t)) := by
    have hremove : s.removeKey? = some s := by rw [removeKey?, hkeys]
    rw [fetchAt?_literal hflow hmarker, fetchBlockScalar?, hremove]
    simp only [bind, Option.bind, hindent, hread]
    rfl
  have hready := ready?_passed (o := none)
    (s := { s with cursor := d, keyAllowed := true }.emit (.scalar false t)) htok hkeys
    (fun _ h => by cases h)
  refine passes_of_steps rfl rfl .refl (steps_of_fetch hrest hfetch hready ?_)
  rw [unindent_cursor]
  simp only [next, List.length_append, List.length_cons]
  omega

theorem passes_brackets {a z : Char} {start stop : Token} (hflow : Brackets a z start stop)
    (hrest : s.cursor.rest = a :: z :: '\n' :: (List.replicate m ' ' ++ tok)) :
    Passes s [start, stop] m tok := by
  obtain ⟨o, hsave, hfree⟩ := saveKey?_of_ne hkeys (by omega)
  have hmarker : s.cursor.isAtMarker = false := isAtMarker_of_column (by omega)
  have hz : startsToken (z :: '\n' :: (List.replicate m ' ' ++ tok)) := by
    rw [startsToken_cons]
    cases hflow <;> decide
  have hskip : (s.cursor.skip 1).rest = z :: '\n' :: (List.replicate m ' ' ++ tok) := by
    rw [Cursor.skip_rest, hrest]
    rfl
  have hend : ((s.cursor.skip 1).skip 1).rest = '\n' :: (List.replicate m ' ' ++ tok) := by
    rw [Cursor.skip_rest, hskip]
    rfl
  obtain ⟨b, hb⟩ : ∃ b : Scanner, b = ⟨s.cursor.skip 1, s.tokens ++ [start], s.indent,
    s.outerIndents, true, [none, o]⟩ := ⟨_, rfl⟩
  obtain ⟨e, he⟩ : ∃ e : Scanner, e = ⟨(s.cursor.skip 1).skip 1, s.tokens ++ [start] ++ [stop],
    s.indent, s.outerIndents, false, [o]⟩ := ⟨_, rfl⟩
  have hinside : b.cursor.rest = z :: '\n' :: (List.replicate m ' ' ++ tok) := by rw [hb, hskip]
  have hopen : s.fetchAt? a = some b := by
    rw [hflow.fetchAt?_open hmarker, openFlow?, hsave, hb]
    rfl
  have hopened : b.ready? = some b := by
    have hfresh : ∀ k, some k ∈ b.keys → PossibleKey.isFresh (b.cursor.skip 0) k := fun k hk => by
      have hk : o = some k := by simpa [hb, eq_comm] using hk
      obtain ⟨_, hindex, hline⟩ := hfree k hk
      subst hb
      exact ⟨hline ▸ Nat.le_refl _, by simp [hindex]⟩
    refine ready?_word (n := 0) hinside hz hfresh ?_
    simp only [hb, Cursor.skip_column]
    omega
  have hclose : b.fetchAt? z = some e := by
    rw [hflow.fetchAt?_close (hb ▸ isAtMarker_of_column (Nat.succ_pos _)), hb, he]
    rfl
  have hclosed : e.ready? = some ((s.next ⟨tok, e.cursor.index + 1 + m, e.cursor.line + 1, m⟩
      [start, stop]).unindent m) := by
    have hready := ready?_line (s := e) (o := o) (n := m) (by rw [he, hend]) htok (by rw [he])
      fun k hk => ⟨(hfree k hk).1, by rw [he, (hfree k hk).2.2]; exact Nat.le_refl _⟩
    rw [hready, he]
    simp [next]
  have hlength : tok.length ≤ ('\n' :: (List.replicate m ' ' ++ tok)).length := by
    simp only [List.length_append, List.length_cons]
    omega
  refine ⟨⟨tok, e.cursor.index + 1 + m, e.cursor.line + 1, m⟩, rfl, rfl,
    .head (steps_of_fetch hrest hopen hopened ?_)
      (.single (steps_of_fetch hinside hclose hclosed ?_))⟩
  · rw [hinside]
  · rw [unindent_cursor]
    exact hlength

end Value

end Scaffold.Yaml.Scanner
