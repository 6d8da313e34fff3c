import Scaffold.Proofs.Yaml.Characters
import Scaffold.Proofs.Yaml.Gap
import Scaffold.Proofs.Yaml.Indent

/-!
Literal scalars read back. Such a scalar is a row of lines, each with the breaks behind it; its
header says how far the lines are indented, where that cannot be seen, and which of the breaks at
the end belong to it. Main statement: `blockScalar?_scalar`.
-/

namespace Scaffold.Yaml

open Printer Gap

/-- A text that goes on with something else than a line break. -/
def startsLine (t : Text) : Prop := ∀ c, t.head? = some c → isBreak c = false

/-- Lines that are not empty, each with the breaks behind it. -/
inductive Lined : Text → Prop
  | nil : Lined []
  | line (l : Text) (b : Char) (bs rest : Text) (hne : l ≠ []) (hl : l.any isBreak = false)
      (hbs : (b :: bs).all isNewline = true) (hrest : Lined rest) (hstart : startsLine rest) :
      Lined (l ++ (b :: bs ++ rest))

/-! ## Empty lines and indentation -/

section Breaks

variable {indent fuel widest : Nat} {rest : Text} {i l : Nat}

theorem length_takeWhile_blanks {n : Nat} (h : rest.head? ≠ some ' ') :
    ((List.replicate n ' ' ++ rest).takeWhile (· == ' ')).length = n := by
  rw [List.takeWhile_append_of_pos fun c hc => by simp [List.eq_of_mem_replicate hc]]
  have : rest.takeWhile (· == ' ') = [] := by
    cases rest with
    | nil => rfl
    | cons c t => simpa [List.takeWhile_cons] using h
  simp [this]

theorem le_length_takeWhile_blanks (n : Nat) (rest : Text) :
    n ≤ ((List.replicate n ' ' ++ rest).takeWhile (· == ' ')).length := by
  rw [List.takeWhile_append_of_pos fun c hc => by simp [List.eq_of_mem_replicate hc]]
  simp

/-- How many blanks at the start of a line are its indentation. -/
def indentation (indent : Nat) (t : Text) : Nat :=
  let blanks := (t.takeWhile (· == ' ')).length
  if indent = 0 then blanks else min blanks indent

theorem blockBreaks?_line {n : Nat} (hstart : startsLine rest)
    (hcount : indentation indent (List.replicate n ' ' ++ rest) = n)
    (htab : indent = 0 ∨ n < indent → rest.head? ≠ some '\t') (hfuel : n + rest.length ≤ fuel) :
    blockBreaks? indent fuel widest ⟨List.replicate n ' ' ++ rest, i, l, 0⟩ =
      some ([], max widest n, ⟨rest, i + n, l, n⟩) := by
  cases fuel with
  | zero =>
    obtain rfl : n = 0 := by omega
    obtain rfl : rest = [] := List.length_eq_zero_iff.mp (by omega)
    simp [blockBreaks?]
  | succ fuel =>
    have hskip : (⟨List.replicate n ' ' ++ rest, i, l, 0⟩ : Cursor).skip
        (if indent = 0 then ((List.replicate n ' ' ++ rest).takeWhile (· == ' ')).length
          else min ((List.replicate n ' ' ++ rest).takeWhile (· == ' ')).length (indent - 0)) =
        ⟨rest, i + n, l, n⟩ := by
      rw [Nat.sub_zero]
      change Cursor.skip _ (indentation indent (List.replicate n ' ' ++ rest)) = _
      rw [hcount]
      simp [Cursor.skip]
    have htab' : ¬ ((indent = 0 ∨ n < indent) ∧ rest.head? = some '\t') := fun h => htab h.1 h.2
    have hbreak : Cursor.isAtBreak ⟨rest, i + n, l, n⟩ = false := by
      rw [Cursor.isAtBreak, Cursor.peek]
      cases hhead : rest.head? with
      | none => rfl
      | some c => exact hstart c hhead
    rw [blockBreaks?]
    simp only [hskip, Cursor.peek, htab', hbreak, Bool.false_eq_true, if_false, pure]

theorem indentation_of_lt {n : Nat} (hrest : startsWord rest) (h : n < indent) :
    indentation indent (List.replicate n ' ' ++ rest) = n := by
  have hhead : rest.head? ≠ some ' ' := fun heq => by cases (hrest ' ' heq).1
  rw [indentation, length_takeWhile_blanks hhead, if_neg (by omega)]
  omega

theorem indentation_of_full (h : 0 < indent) (rest : Text) :
    indentation indent (List.replicate indent ' ' ++ rest) = indent := by
  have := le_length_takeWhile_blanks indent rest
  rw [indentation, if_neg (by omega)]
  omega

theorem head?_ne_tab (hrest : startsWord rest) : rest.head? ≠ some '\t' :=
  fun heq => by cases (hrest '\t' heq).1

/-- Empty lines are passed over up to the line behind them. -/
theorem blockBreaks?_lines {n : Nat} {bs : Text} (hbs : bs.all isNewline = true)
    (hstart : startsLine rest) (hcount : indentation indent (List.replicate n ' ' ++ rest) = n)
    (htab : indent = 0 ∨ n < indent → rest.head? ≠ some '\t')
    (hfuel : bs.length + (n + rest.length) ≤ fuel) :
    blockBreaks? indent fuel widest ⟨bs ++ (List.replicate n ' ' ++ rest), i, l, 0⟩ =
      some (bs, max widest n, ⟨rest, i + bs.length + n, l + bs.length, n⟩) := by
  induction bs generalizing fuel widest i l with
  | nil => simpa using blockBreaks?_line hstart hcount htab (by simpa using hfuel)
  | cons b bs ih =>
    rw [List.length_cons] at hfuel
    obtain ⟨fuel, rfl⟩ : ∃ k, fuel = k + 1 := ⟨fuel - 1, by omega⟩
    simp only [List.all_cons, Bool.and_eq_true] at hbs
    obtain ⟨hbreak, hblank, hreturn⟩ := isBreak_of_isNewline hbs.1
    have hspace : (b == ' ') = false := by
      simp only [isBlank, Bool.or_eq_false_iff] at hblank
      exact hblank.1
    have htab' : b ≠ '\t' := by
      rintro rfl
      cases hblank
    have htext : (⟨b :: (bs ++ (List.replicate n ' ' ++ rest)), i, l, 0⟩ : Cursor).breakText = [b] :=
      breakText_of_isNewline hbs.1 rfl
    have hnext : (⟨b :: (bs ++ (List.replicate n ' ' ++ rest)), i, l, 0⟩ : Cursor).skipBreak =
        ⟨bs ++ (List.replicate n ' ' ++ rest), i + 1, l + 1, 0⟩ :=
      Cursor.skipBreak_of_ne _ rfl hreturn
    have hblanks : ∀ t, (b :: t).takeWhile (· == ' ') = [] := fun t => by
      rw [List.takeWhile_cons, hspace]
      rfl
    rw [List.cons_append, blockBreaks?]
    simp only [hblanks, List.length_nil, Nat.zero_min, ite_self, Cursor.skip_zero,
      Cursor.peek_mk, Cursor.isAtBreak, Option.some.injEq, htab', and_false, if_false,
      Option.any_some, hbreak, if_true, htext, hnext]
    rw [ih hbs.2 (by omega)]
    simp [bind, pure, Nat.add_assoc, Nat.add_comm 1]

end Breaks

/-! ## Lines -/

def BlockGap.text (g : BlockGap) : Text := g.lineBreak ++ g.emptyLines

section Lines

variable {n : Nat} {g : BlockGap}

/-- One line, the breaks behind it and the indentation of the next one. -/
theorem blockLines?_line {fuel k : Nat} {line : Text} {b : Char} {bs rest : Text} {c : Cursor}
    (hc : c.rest = line ++ b :: (bs ++ (List.replicate k ' ' ++ rest))) (hcolumn : c.column = n)
    (hline : line.any isBreak = false) (hbs : (b :: bs).all isNewline = true)
    (hstart : startsLine rest) (hcount : indentation n (List.replicate k ' ' ++ rest) = k)
    (hn : 0 < n) (htab : k < n → rest.head? ≠ some '\t') :
    blockLines? true n (fuel + 1) g c =
      (blockLines? true n fuel ⟨[b], bs, c.isAtBlank⟩
        ⟨rest, c.index + line.length + 1 + bs.length + k, c.line + 1 + bs.length, k⟩).map
          fun (more, last, d) => (g.text ++ line ++ more, last, d) := by
  simp only [List.all_cons, Bool.and_eq_true] at hbs
  obtain ⟨hbreak, _, hreturn⟩ := isBreak_of_isNewline hbs.1
  have hpeek : c.peek ≠ none := by
    rw [ne_eq, Cursor.peek, List.head?_eq_none_iff, hc]
    simp
  have htake : c.takeWhile (!isBreak ·) = (line, c.skip line.length) := by
    have : c.rest.takeWhile (!isBreak ·) = line := by
      rw [hc, List.takeWhile_append_of_pos fun d hd => by
        simpa using List.any_eq_false.mp hline d hd]
      simp [hbreak]
    rw [Cursor.takeWhile, this]
  have hskip : (c.skip line.length).rest = b :: (bs ++ (List.replicate k ' ' ++ rest)) := by
    simp [hc]
  have hend : (c.skip line.length).isAtBreak = true := by
    rw [Cursor.isAtBreak, Cursor.peek_eq _ hskip]
    exact hbreak
  have hlines : blockBreaks? n (bs ++ (List.replicate k ' ' ++ rest)).length 0
      ⟨bs ++ (List.replicate k ' ' ++ rest), c.index + line.length + 1, c.line + 1, 0⟩ =
        some (bs, max 0 k, ⟨rest, c.index + line.length + 1 + bs.length + k,
          c.line + 1 + bs.length, k⟩) :=
    blockBreaks?_lines hbs.2 hstart hcount (fun h => htab (by omega)) (by simp)
  rw [blockLines?]
  simp only [hcolumn, ne_eq, not_true_eq_false, hpeek, or_self, if_false, htake, hend, if_true,
    breakText_of_isNewline hbs.1 hskip, Cursor.skipBreak_of_ne _ hskip hreturn, Cursor.skip_index,
    Cursor.skip_line, hlines, bind, Option.bind, BlockGap.fold, Bool.not_true, Bool.false_and,
    Bool.false_eq_true]
  cases blockLines? true n fuel ⟨[b], bs, c.isAtBlank⟩
    ⟨rest, c.index + line.length + 1 + bs.length + k, c.line + 1 + bs.length, k⟩ <;> rfl

theorem blockLines?_stop {fuel : Nat} {c : Cursor} (hc : c.column ≠ n) :
    blockLines? true n fuel g c = some ([], g, c) := by
  cases fuel with
  | zero => rfl
  | succ fuel =>
    rw [blockLines?, if_pos (.inl hc)]
    rfl

/-- The part of a text in front of the line breaks at its end. -/
def Trimmed (t : Text) : Prop := ∀ c, t.getLast? = some c → isBreak c = false

/-- Behind the breaks of a line stands the next one, or else the text behind the literal. -/
theorem exists_next {rest : Text} (hstart : startsLine rest) {m : Nat} (hm : m < n) {tok : Text}
    (htok : startsWord tok) : ∃ k next,
      indentBy n true rest ++ (List.replicate m ' ' ++ tok) = List.replicate k ' ' ++ next ∧
      (k = if rest = [] then m else n) ∧
      (next = if rest = [] then tok
        else indentBy n false rest ++ (List.replicate m ' ' ++ tok)) ∧
      indentation n (List.replicate k ' ' ++ next) = k ∧ startsLine next ∧
      (k < n → next.head? ≠ some '\t') := by
  cases rest with
  | nil =>
    exact ⟨m, tok, rfl, rfl, rfl, indentation_of_lt htok hm, fun d hd => (htok d hd).2,
      fun _ => head?_ne_tab htok⟩
  | cons d rest =>
    refine ⟨n, indentBy n false (d :: rest) ++ (List.replicate m ' ' ++ tok), ?_, rfl, rfl,
      indentation_of_full (by omega) _, fun e he => ?_, fun h => absurd h (Nat.lt_irrefl n)⟩
    · rw [indentBy_true_cons n (hstart d rfl), List.append_assoc]
    · rw [indentBy_false_cons] at he
      cases he
      exact hstart d rfl

/-- The lines of a literal are read as they stand, up to a line that is indented less. -/
theorem blockLines?_lined {t : Text} (ht : Lined t) {m : Nat} (hm : m < n) {tok : Text}
    (htok : startsWord tok) {fuel : Nat} {c : Cursor} (hfuel : t.length < fuel)
    (hcolumn : c.column = if t = [] then m else n)
    (hc : c.rest = if t = [] then tok
      else indentBy n false t ++ (List.replicate m ' ' ++ tok)) :
    ∃ body last d, blockLines? true n fuel g c = some (body, last, d) ∧
      body ++ last.text = g.text ++ t ∧ (t = [] → body = [] ∧ last = g) ∧
      (t ≠ [] → Trimmed body ∧ body ≠ [] ∧ last.lineBreak.length = 1 ∧ last.text.all isBreak = true) ∧
      d.rest = tok ∧ d.column = m ∧ c.line ≤ d.line := by
  induction ht generalizing fuel c g with
  | nil =>
    rw [if_pos rfl] at hcolumn hc
    exact ⟨[], g, c, blockLines?_stop (by omega), by simp, fun _ => ⟨rfl, rfl⟩,
      fun h => absurd rfl h, hc, hcolumn, Nat.le_refl _⟩
  | line l b bs rest hne hl hbs hrest hstart ih =>
    have hbreaks := all_isBreak hbs
    have hnil : l ++ (b :: bs ++ rest) ≠ [] := by simp
    rw [if_neg hnil] at hcolumn hc
    obtain ⟨fuel, rfl⟩ : ∃ k, fuel = k + 1 := ⟨fuel - 1, by omega⟩
    obtain ⟨k, next, hnext, hk, hnextrest, hcount, hstart', htab⟩ := exists_next hstart hm htok
    have hfirst : c.rest = l ++ b :: (bs ++ (List.replicate k ' ' ++ next)) := by
      rw [hc, indentBy_of_no_break n hl, indentBy_append, indentBy_breaks n false hbreaks,
        endsLine_breaks false hbreaks, ← hnext]
      simp
    obtain ⟨more, last, d, hread, htext, hempty, hfull, hrest, hcol, hline⟩ :=
      ih (g := ⟨[b], bs, c.isAtBlank⟩)
        (c := ⟨next, c.index + l.length + 1 + bs.length + k, c.line + 1 + bs.length, k⟩)
        (show rest.length < fuel by simp at hfuel; omega) hk hnextrest
    refine ⟨g.text ++ l ++ more, last, d, ?_, ?_, fun h => absurd h hnil, fun _ => ?_, hrest, hcol,
      ?_⟩
    · rw [blockLines?_line hfirst hcolumn hl hbs hstart' hcount (by omega) htab, hread]
      rfl
    · rw [List.append_assoc, htext]
      simp [BlockGap.text]
    · by_cases hlast : rest = []
      · obtain ⟨rfl, rfl⟩ := hempty hlast
        refine ⟨fun d hd => ?_, by simp [hne], rfl, by simpa [BlockGap.text] using hbreaks⟩
        rw [List.append_nil, List.getLast?_append, Option.or_of_isSome (by simpa using hne)] at hd
        simpa using List.any_eq_false.mp hl d (List.mem_of_getLast? hd)
      · obtain ⟨htrim, hmore, hlength, hall⟩ := hfull hlast
        refine ⟨fun d hd => htrim d ?_, by simp [hne], hlength, hall⟩
        rwa [List.getLast?_append, Option.or_of_isSome (by simpa using hmore)] at hd
    · simp only at hline
      omega

end Lines

/-! ## The breaks at the end -/

theorem trimmed_unique {s s' u u' : Text} (h : s ++ u = s' ++ u') (hs : Trimmed s)
    (hs' : Trimmed s') (hu : u.all isBreak = true) (hu' : u'.all isBreak = true) :
    s = s' ∧ u = u' := by
  have hsame : s = s' := by
    rw [← Text.trimEnd_append hs hu, h, Text.trimEnd_append hs' hu']
  subst hsame
  exact ⟨rfl, List.append_cancel_left h⟩

theorem endsLine_of_unbroken {l : Text} (hne : l ≠ []) (h : l.any isBreak = false) (b : Bool) :
    endsLine b l = false := by
  induction l generalizing b with
  | nil => exact absurd rfl hne
  | cons c l ih =>
    simp only [List.any_cons, Bool.or_eq_false_iff] at h
    cases l with
    | nil => exact h.1
    | cons d l => exact ih (List.cons_ne_nil d l) h.2 false

/-- A text that ends with a line consists of lines. -/
theorem lined_of_endsLine {t : Text} (hend : endsLine true t = true) (hstart : startsLine t)
    (hnewline : ∀ c ∈ t, isBreak c = true → isNewline c = true) : Lined t := by
  induction hn : t.length using Nat.strongRecOn generalizing t with
  | _ n ih =>
    cases t with
    | nil => exact .nil
    | cons c t =>
      obtain ⟨l, rest, hl, hunbroken, hrest⟩ := exists_run (fun c => !isBreak c) t
      have hline : (c :: l).any isBreak = false := by
        rw [List.any_cons, hstart c rfl, Bool.false_or, List.any_eq_false]
        intro d hd
        simpa using List.all_eq_true.mp hunbroken d hd
      rw [hl, ← List.cons_append] at hend hnewline ⊢
      rw [endsLine_append, endsLine_of_unbroken (List.cons_ne_nil c l) hline] at hend
      cases rest with
      | nil => cases hend
      | cons b rest =>
        obtain ⟨bs, more, hbs, hbreaks, hmore⟩ := exists_run isBreak rest
        have hall : (b :: bs).all isBreak = true := by
          have := hrest b rfl
          simp_all
        rw [hbs, ← List.cons_append] at hend hnewline ⊢
        have hnew : (b :: bs).all isNewline = true := by
          rw [List.all_eq_true] at hall ⊢
          exact fun d hd => hnewline d (List.mem_append_right _ (List.mem_append_left _ hd))
            (hall d hd)
        rw [endsLine_append, endsLine_breaks _ hall] at hend
        refine .line _ b bs more (List.cons_ne_nil c l) hline hnew
          (ih more.length ?_ hend hmore ?_ rfl) hmore
        · simp [hl, hbs] at hn
          omega
        · exact fun d hd => hnewline d (by simp [hd])

/-! ## The header -/

/-- What the end of a literal is told to do with the line breaks there. -/
def chompingOf (t : Text) : Chomping :=
  match chompMark t with
  | ['+'] => .keep
  | ['-'] => .strip
  | _ => .clip

/-- What is kept of the line breaks at the end of a literal. -/
def BlockGap.ending (g : BlockGap) : Chomping → Text
  | .strip => []
  | .clip => g.lineBreak
  | .keep => g.lineBreak ++ g.emptyLines

theorem chompMark_cases (t : Text) : chompMark t = ['+'] ∨ chompMark t = ['-'] ∨ chompMark t = [] := by
  unfold chompMark
  split
  · exact .inl rfl
  · split
    · exact .inr (.inl rfl)
    · split
      · exact .inl rfl
      · exact .inr (.inr rfl)
  · exact .inr (.inl rfl)

theorem blockHeader?_marks (t rest : Text) (i l k : Nat) : ∃ j,
    blockHeader? ⟨indentMark t ++ chompMark t ++ '\n' :: rest, i, l, k⟩ =
      some (chompingOf t, if indentMark t = [] then 0 else 2, ⟨rest, j, l + 1, 0⟩) := by
  have hindent : indentMark t = ['2'] ∨ indentMark t = [] := by
    rw [indentMark]
    split <;> simp
  rw [chompingOf]
  obtain hi | hi := hindent <;> obtain hc | hc | hc := chompMark_cases t <;> rw [hi, hc] <;>
    exact ⟨_, rfl⟩

theorem chompingOf_concat (s : Text) (d c : Char) : chompingOf (s ++ [d] ++ [c]) =
    if isBreak c then (if isBreak d then .keep else .clip) else .strip := by
  cases hc : isBreak c <;> cases hd : isBreak d <;> simp [chompingOf, chompMark, hc, hd]

/-- The breaks that are read at the end of a literal are those of its text. -/
theorem chomped {t body : Text} {last : BlockGap} (hline : '\n' ∈ t)
    (htext : body ++ last.text = endLine t)
    (hempty : (body = [] ∧ (endLine t).all isBreak = true) ∨
      Trimmed body ∧ body ≠ [] ∧ last.lineBreak.length = 1 ∧ last.text.all isBreak = true) :
    body ++ last.ending (chompingOf t) = t := by
  have hclosed : ∀ (s : Text) (c : Char), isBreak c = true → endLine (s ++ [c]) = s ++ [c] :=
    fun s c hc => by simp [endLine, hc]
  cases hrev : t.reverse with
  | nil =>
    rw [List.reverse_eq_nil_iff] at hrev
    simp [hrev] at hline
  | cons c r =>
    cases r with
    | nil =>
      obtain rfl : t = [c] := by rw [← List.reverse_reverse t, hrev]; rfl
      obtain rfl : '\n' = c := List.mem_singleton.mp hline
      exact htext
    | cons d r =>
      obtain rfl : t = r.reverse ++ [d] ++ [c] := by
        rw [← List.reverse_reverse t, hrev]
        simp
      rw [chompingOf_concat]
      cases hc : isBreak c with
      | false =>
        have hend : endLine (r.reverse ++ [d] ++ [c]) = r.reverse ++ [d] ++ [c] ++ ['\n'] := by
          simp [endLine, hc]
        rw [hend] at htext hempty
        obtain ⟨_, hall⟩ | ⟨htrim, _, _, hbreaks⟩ := hempty
        · simp [hc] at hall
        · have htrimmed : Trimmed (r.reverse ++ [d] ++ [c]) := fun e he => by
            rw [List.getLast?_concat] at he
            exact Option.some.inj he ▸ hc
          simp only [Bool.false_eq_true, if_false, BlockGap.ending, List.append_nil]
          exact (trimmed_unique htext htrim htrimmed hbreaks rfl).1
      | true =>
        rw [hclosed _ c hc] at htext hempty
        cases hd : isBreak d with
        | true => simpa [BlockGap.text, BlockGap.ending] using htext
        | false =>
          obtain ⟨_, hall⟩ | ⟨htrim, _, hlength, hbreaks⟩ := hempty
          · simp [hd] at hall
          · have htrimmed : Trimmed (r.reverse ++ [d]) := fun e he => by
              rw [List.getLast?_concat] at he
              exact Option.some.inj he ▸ hd
            obtain ⟨hbody, hlast⟩ := trimmed_unique htext htrim htrimmed hbreaks (by simpa using hc)
            obtain ⟨b, hb⟩ := List.length_eq_one_iff.mp hlength
            rw [BlockGap.text, hb] at hlast
            obtain rfl := (List.cons.inj hlast).1
            simp [hbody, hb, BlockGap.ending]

/-! ## The whole literal -/

theorem isNewline_of_literal {t : Text} (hstyle : Style.of t = .literal) :
    ∀ c ∈ endLine t, isBreak c = true → isNewline c = true := by
  have hprintable : ∀ c ∈ t, isPrintable c = true := isPrintable_of_style (by simp [hstyle])
  intro c hc hbreak
  have hcases : c ∈ t ∨ c = '\n' := by
    rw [endLine] at hc
    split at hc
    · exact .inl hc
    · simpa using hc
  obtain hc | rfl := hcases
  · exact isNewline_of_isPrintable (hprintable c hc) hbreak
  · rfl

/-- A literal without a mark of its indentation starts with a line that shows it. -/
theorem exists_first_of_indentMark {t : Text} (hne : t ≠ []) (h : indentMark t = []) :
    ∃ c s, endLine t = c :: s ∧ isBreak c = false ∧ c ≠ ' ' ∧ c ∈ t := by
  cases t with
  | nil => exact absurd rfl hne
  | cons c t =>
    have hc : c ≠ ' ' ∧ isBreak c = false := by simpa [indentMark] using h
    rw [endLine]
    split
    · exact ⟨c, t, rfl, hc.2, hc.1, List.mem_cons_self ..⟩
    · exact ⟨c, t ++ ['\n'], rfl, hc.2, hc.1, List.mem_cons_self ..⟩

/-- A literal without a mark of its indentation has no empty lines at its start. -/
theorem exists_lines_of_indentMark {t bs lines : Text} (hstyle : Style.of t = .literal)
    (hsplit : endLine t = bs ++ lines) (hbs : bs.all isBreak = true) (hmark : indentMark t = []) :
    bs = [] ∧ ∃ c s, lines = c :: s ∧ c ≠ ' ' ∧ c ≠ '\t' := by
  obtain ⟨c, s, hfirst, hc, hspace, hmem⟩ :=
    exists_first_of_indentMark (List.ne_nil_of_mem (admits_of_literal hstyle).1) hmark
  rw [hfirst] at hsplit
  obtain rfl : bs = [] := by
    cases bs with
    | nil => rfl
    | cons b bs =>
      obtain ⟨rfl, _⟩ := List.cons.inj hsplit
      simp [hc] at hbs
  have hprintable := isPrintable_of_style (t := t) (by simp [hstyle]) c hmem
  refine ⟨rfl, c, s, hsplit.symm, hspace, ?_⟩
  rintro rfl
  revert hprintable
  decide

/-- The empty lines at the start of a literal, and its indentation. -/
theorem blockBreaks?_first {t bs lines : Text} (hstyle : Style.of t = .literal)
    (hsplit : endLine t = bs ++ lines) (hbs : bs.all isNewline = true) (hstart : startsLine lines)
    {i m : Nat} (hm : m < i + 2) {tok : Text} (htok : startsWord tok) (j l : Nat) :
    ∃ k next widest,
      blockBreaks? (if indentMark t = [] then 0 else i + 2)
          (indentBy (i + 2) true (endLine t) ++ (List.replicate m ' ' ++ tok)).length 0
          ⟨indentBy (i + 2) true (endLine t) ++ (List.replicate m ' ' ++ tok), j, l, 0⟩ =
        some (bs, widest, ⟨next, j + bs.length + k, l + bs.length, k⟩) ∧
      (k = if lines = [] then m else i + 2) ∧
      (next = if lines = [] then tok
        else indentBy (i + 2) false lines ++ (List.replicate m ' ' ++ tok)) ∧
      (indentMark t = [] → widest = i + 2) := by
  have hbreaks := all_isBreak hbs
  have hend : endsLine true bs = true := by
    cases bs with
    | nil => rfl
    | cons b bs => exact endsLine_breaks _ hbreaks
  obtain ⟨k, next, hnext, hk, hnextrest, hcount, hstart', htab⟩ := exists_next hstart hm htok
  have htext : indentBy (i + 2) true (endLine t) ++ (List.replicate m ' ' ++ tok) =
      bs ++ (List.replicate k ' ' ++ next) := by
    rw [hsplit, indentBy_append, indentBy_breaks _ _ hbreaks, hend, List.append_assoc, hnext]
  have hshown : indentMark t = [] → k = i + 2 ∧ next.head? ≠ some ' ' ∧ next.head? ≠ some '\t' := by
    intro hmark
    obtain ⟨_, c, s, rfl, hspace, htab⟩ := exists_lines_of_indentMark hstyle hsplit hbreaks hmark
    rw [if_neg (List.cons_ne_nil c s)] at hk hnextrest
    rw [hnextrest, indentBy_false_cons, List.cons_append, List.head?_cons]
    exact ⟨hk, by simpa using hspace, by simpa using htab⟩
  refine ⟨k, next, max 0 k, ?_, hk, hnextrest, fun hmark => by rw [(hshown hmark).1]; simp⟩
  rw [htext]
  by_cases hmark : indentMark t = []
  · rw [if_pos hmark]
    refine blockBreaks?_lines hbs hstart' ?_ (fun _ => (hshown hmark).2.2) (by simp)
    rw [indentation, length_takeWhile_blanks (hshown hmark).2.1, if_pos rfl]
  · rw [if_neg hmark]
    exact blockBreaks?_lines hbs hstart' hcount (fun h => htab (by omega)) (by simp)

/-- The text of a literal is so many line breaks and then lines. -/
theorem exists_lined {t : Text} (hstyle : Style.of t = .literal) : ∃ bs lines,
    endLine t = bs ++ lines ∧ bs.all isNewline = true ∧ startsLine lines ∧ Lined lines := by
  obtain ⟨bs, lines, hsplit, hall, hhead⟩ := exists_run isBreak (endLine t)
  have hnewline := isNewline_of_literal hstyle
  rw [hsplit] at hnewline
  have hbs : bs.all isNewline = true := List.all_eq_true.mpr fun ch hch =>
    hnewline ch (List.mem_append_left _ hch) (List.all_eq_true.mp hall ch hch)
  have hend : endsLine true lines = true := by
    have := endsLine_endLine true t
    rw [hsplit, endsLine_append] at this
    cases bs with
    | nil => exact this
    | cons b bs => rwa [endsLine_breaks _ hall] at this
  exact ⟨bs, lines, hsplit, hbs, hhead, lined_of_endsLine hend hhead fun ch hch =>
    hnewline ch (List.mem_append_right _ hch)⟩

/-- A literal is read back from behind its first character, up to the word that follows in a line
that is indented less. -/
theorem blockScalar?_scalar {t : Text} (hstyle : Style.of t = .literal) {i m : Nat}
    (hm : m < i + 2) {tok : Text} (htok : startsWord tok) {c : Cursor}
    (hc : c.rest = indentMark t ++ chompMark t ++
      '\n' :: (indentBy (i + 2) true (endLine t) ++ (List.replicate m ' ' ++ tok))) :
    ∃ d, blockScalar? true i c = some (t, d) ∧ d.rest = tok ∧ d.column = m ∧ c.line < d.line := by
  obtain ⟨bs, lines, hsplit, hbs, hhead, hlined⟩ := exists_lined hstyle
  obtain ⟨j, hheader⟩ := blockHeader?_marks t
    (indentBy (i + 2) true (endLine t) ++ (List.replicate m ' ' ++ tok)) c.index c.line c.column
  have hcursor : c = ⟨indentMark t ++ chompMark t ++
      '\n' :: (indentBy (i + 2) true (endLine t) ++ (List.replicate m ' ' ++ tok)),
      c.index, c.line, c.column⟩ := by rw [← hc]
  obtain ⟨k, next, widest, hbreaks, hk, hnext, hwidest⟩ :=
    blockBreaks?_first hstyle hsplit hbs hhead hm htok j (c.line + 1)
  have hfuel : lines.length < next.length + 1 := by
    rw [hnext]
    split
    · next hnil => simp [hnil]
    · have := length_le_indentBy (i + 2) false lines
      simp only [List.length_append]
      omega
  obtain ⟨body, last, d, hread, htext, hempty, hfull, hrest, hcolumn, hle⟩ :=
    blockLines?_lined (n := i + 2) (g := ⟨[], bs, false⟩) hlined hm htok
      (c := ⟨next, j + bs.length + k, c.line + 1 + bs.length, k⟩) hfuel hk hnext
  refine ⟨d, ?_, hrest, hcolumn, by simp only at hle; omega⟩
  have hgiven : (if (if indentMark t = [] then 0 else 2) = 0 then 0
      else if (0 : Int) ≤ (i : Int) then (i : Int).toNat + (if indentMark t = [] then 0 else 2)
        else (if indentMark t = [] then 0 else 2)) = if indentMark t = [] then 0 else i + 2 := by
    split <;> simp
  have hindent : (if (if indentMark t = [] then 0 else i + 2) = 0 then
      max (max widest ((i : Int) + 1).toNat) 1 else if indentMark t = [] then 0 else i + 2) =
        i + 2 := by
    by_cases hmark : indentMark t = []
    · simp [hmark, hwidest hmark]
    · simp [hmark]
  rw [blockScalar?, hcursor, hheader]
  simp only [bind, Option.bind, hgiven, hbreaks, hindent, hread, pure]
  have hwhole : body ++ last.text = endLine t := by
    rw [htext, hsplit]
    rfl
  have hchomped : body ++ last.ending (chompingOf t) = t := by
    refine chomped (admits_of_literal hstyle).1 hwhole ?_
    by_cases hnil : lines = []
    · obtain ⟨rfl, rfl⟩ := hempty hnil
      exact .inl ⟨rfl, by rw [hsplit, hnil, List.append_nil, all_isBreak hbs]⟩
    · exact .inr (hfull hnil)
  exact congrArg (fun text => some (text, d)) hchomped

end Scaffold.Yaml
