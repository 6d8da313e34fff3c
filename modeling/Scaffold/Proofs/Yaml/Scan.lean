import Mathlib.Logic.Relation
import Scaffold.Proofs.Yaml.Characters

/-!
The scanner as a machine that stands in front of one token after the other. Between two tokens
blanks and line breaks are passed over, keys that can be none are forgotten, and collections are
closed (`ready?_word`, `ready?_line`, `ready?_passed`). Main statement: a run along such places
ends where they end (`run?_of_reaches`).
-/

namespace Scaffold.Yaml.Scanner

open Relation Printer

/-- What is done in front of a token, or in front of the end. -/
def ready? (s : Scanner) : Option Scanner := do
  let s ← (skipToToken (s.cursor.rest.length + 1) s).dropStaleKeys?
  pure (s.unindent s.cursor.column)

/-- From in front of one token to in front of the next. -/
def Steps (a b : Scanner) : Prop :=
  ∃ c s, a.cursor.peek = some c ∧ a.fetchAt? c = some s ∧ s.ready? = some b ∧
    b.cursor.rest.length < a.cursor.rest.length

abbrev Reaches : Scanner → Scanner → Prop := ReflTransGen Steps

theorem run?_succ (fuel : Nat) (s : Scanner) : run? (fuel + 1) s =
    s.ready?.bind fun s => match s.cursor.peek with
      | none => s.finish?
      | some c => (s.fetchAt? c).bind (run? fuel) := by
  rw [run?, ready?]
  simp only [bind, Option.bind_assoc]
  rfl

/-- The text gets shorter with each token, so there is fuel for all of them. -/
theorem run?_of_reaches {s a b : Scanner} (hs : s.ready? = some a) (h : Reaches a b)
    (hb : b.cursor.peek = none) (fuel : Nat) (hfuel : a.cursor.rest.length < fuel) :
    run? fuel s = b.finish? := by
  induction h using ReflTransGen.head_induction_on generalizing s fuel with
  | refl =>
    obtain ⟨fuel, rfl⟩ : ∃ k, fuel = k + 1 := ⟨fuel - 1, by omega⟩
    rw [run?_succ, hs, Option.bind_some, hb]
  | head hstep _ ih =>
    obtain ⟨fuel, rfl⟩ : ∃ k, fuel = k + 1 := ⟨fuel - 1, by omega⟩
    obtain ⟨c, next, hpeek, hfetch, hready, hlength⟩ := hstep
    rw [run?_succ, hs, Option.bind_some, hpeek]
    simp only [hfetch, Option.bind_some]
    exact ih hready fuel (by omega)

/-! ## Between two tokens -/

/-- A text that goes on with a token, or ends. -/
def startsToken (t : Text) : Prop :=
  ∀ c, t.head? = some c → isPlainChar c = true ∧ c ≠ ' ' ∧ c ≠ '#'

theorem startsToken_nil : startsToken [] := nofun

theorem startsToken_cons {c : Char} {t : Text} :
    startsToken (c :: t) ↔ isPlainChar c = true ∧ c ≠ ' ' ∧ c ≠ '#' := by
  simp [startsToken]

theorem ne_of_isPlainChar {c : Char} (h : isPlainChar c = true) :
    isBreak c = false ∧ c ≠ '\t' ∧ c ≠ '\ufeff' := by
  simp only [isPlainChar, Bool.and_eq_true, Bool.not_eq_true'] at h
  refine ⟨h.2, ?_, ?_⟩ <;> rintro rfl <;> exact absurd h.1 (by decide)

theorem startsWord_of_startsToken {t : Text} (h : startsToken t) : startsWord t := by
  intro c hc
  obtain ⟨hplain, hspace, _⟩ := h c hc
  obtain ⟨hbreak, htab, _⟩ := ne_of_isPlainChar hplain
  exact ⟨by simp [isBlank, hspace, htab], hbreak⟩

section Skip

variable {s : Scanner} {tok : Text} {n : Nat}

theorem takeWhile_blanks (p : Char → Bool) (hp : p ' ' = true) (htok : startsToken tok)
    (htab : ∀ c, p c = true → c = ' ' ∨ c = '\t') :
    (List.replicate n ' ' ++ tok).takeWhile p = List.replicate n ' ' := by
  rw [List.takeWhile_append_of_pos fun c hc => List.eq_of_mem_replicate hc ▸ hp]
  have : tok.takeWhile p = [] := by
    cases tok with
    | nil => rfl
    | cons c t =>
      obtain ⟨hplain, hspace, _⟩ := startsToken_cons.mp htok
      have hc : p c = false := by
        rw [← Bool.not_eq_true]
        intro hc
        obtain rfl | rfl := htab c hc
        · exact hspace rfl
        · exact (ne_of_isPlainChar hplain).2.1 rfl
      rw [List.takeWhile_cons, hc]
      rfl
  rw [this, List.append_nil]

theorem skipToToken_blanks (hrest : s.cursor.rest = List.replicate n ' ' ++ tok)
    (htok : startsToken tok) (fuel : Nat) :
    skipToToken (fuel + 1) s = { s with cursor := s.cursor.skip n } := by
  have hmark : ¬ (s.cursor.index = 0 ∧ s.cursor.peek = some '\ufeff') := by
    rintro ⟨_, hpeek⟩
    cases n with
    | zero => exact (ne_of_isPlainChar (htok _ (by rwa [Cursor.peek, hrest] at hpeek)).1).2.2 rfl
    | succ n =>
      rw [s.cursor.peek_eq hrest] at hpeek
      cases hpeek
  have hskip : ∀ p : Char → Bool, p ' ' = true → (∀ c, p c = true → c = ' ' ∨ c = '\t') →
      s.cursor.skipWhile p = s.cursor.skip n := fun p hp htab => by
    rw [Cursor.skipWhile, Cursor.takeWhile, hrest, takeWhile_blanks p hp htok htab,
      List.length_replicate]
  have hpeek : (s.cursor.skip n).peek = tok.head? := by
    rw [Cursor.peek, Cursor.skip_rest, hrest]
    simp
  have hnumber : (s.cursor.skip n).peek ≠ some '#' := by
    rw [hpeek]
    exact fun h => (htok _ h).2.2 rfl
  have hbreak : (s.cursor.skip n).isAtBreak = false := by
    rw [Cursor.isAtBreak, hpeek]
    cases h : tok.head? with
    | none => rfl
    | some c => exact (ne_of_isPlainChar (htok c h).1).1
  rw [skipToToken]
  simp only [hmark, if_false]
  have htab : ∀ c, (c == ' ' || ((s.inFlow || !s.keyAllowed) && c == '\t')) = true →
      c = ' ' ∨ c = '\t' := fun c hc => by
    simp only [Bool.or_eq_true, Bool.and_eq_true, beq_iff_eq] at hc
    exact hc.imp_right And.right
  rw [hskip _ (by simp) htab]
  simp only [hnumber, if_false, hbreak, Bool.false_eq_true]

theorem skipToToken_line (hrest : s.cursor.rest = '\n' :: (List.replicate n ' ' ++ tok))
    (htok : startsToken tok) (fuel : Nat) :
    skipToToken (fuel + 2) s = { s with
      cursor := ⟨tok, s.cursor.index + 1 + n, s.cursor.line + 1, n⟩
      keyAllowed := !s.inFlow || s.keyAllowed } := by
  have hpeek : s.cursor.peek = some '\n' := s.cursor.peek_eq hrest
  have hskip : ∀ p : Char → Bool, p '\n' = false → s.cursor.skipWhile p = s.cursor := fun p hp => by
    rw [Cursor.skipWhile, Cursor.takeWhile, hrest, List.takeWhile_cons, hp]
    rfl
  have hbreak : s.cursor.isAtBreak = true := by
    rw [Cursor.isAtBreak, hpeek]
    rfl
  rw [skipToToken]
  simp only [hpeek, Option.some.injEq, Char.reduceEq, and_false, if_false]
  rw [hskip _ (by simp)]
  simp only [hpeek, Option.some.injEq, Char.reduceEq, if_false, hbreak, if_true]
  rw [s.cursor.skipBreak_newline hrest, skipToToken_blanks rfl htok]
  simp [Cursor.skip]

end Skip

/-! ## Keys that can be none -/

/-- Whether a possible key may still turn out to be one. -/
def PossibleKey.isFresh (c : Cursor) (k : PossibleKey) : Prop :=
  c.line ≤ k.line ∧ c.index ≤ k.index + 1024

theorem dropStaleKeys?_fresh {s : Scanner}
    (h : ∀ k, some k ∈ s.keys → PossibleKey.isFresh s.cursor k) : s.dropStaleKeys? = some s := by
  have hsame {f : Option PossibleKey → Option (Option PossibleKey)}
      {ks : List (Option PossibleKey)} (hf : ∀ o ∈ ks, f o = some o) : ks.mapM f = some ks := by
    induction ks with
    | nil => rfl
    | cons o ks ih =>
      rw [List.mapM_cons, hf o (List.mem_cons_self ..),
        ih fun o ho => hf o (List.mem_cons_of_mem _ ho)]
      rfl
  rw [dropStaleKeys?]
  refine congrArg (Option.bind · _) (hsame fun o ho => ?_)
  cases o with
  | none => rfl
  | some k =>
    have hfresh := h k ho
    have : ¬ (k.line < s.cursor.line ∨ k.index + 1024 < s.cursor.index) := by
      simp only [PossibleKey.isFresh] at hfresh
      omega
    simp only [this, if_false]

theorem dropStaleKeys?_ended {s : Scanner} {o : Option PossibleKey} (hkeys : s.keys = [o])
    (h : ∀ k, o = some k → k.required = false ∧ k.line < s.cursor.line) :
    s.dropStaleKeys? = some { s with keys := [none] } := by
  cases o with
  | none =>
    rw [dropStaleKeys?_fresh (by simp [hkeys])]
    obtain ⟨cursor, tokens, indent, outer, allowed, keys⟩ := s
    obtain rfl := hkeys
    rfl
  | some k =>
    obtain ⟨hrequired, hline⟩ := h k rfl
    rw [dropStaleKeys?, hkeys]
    simp [hline, hrequired]

/-! ## In front of the next token -/

theorem unindent_of_le {s : Scanner} {column : Int} (h : s.indent ≤ column) :
    s.unindent column = s := by
  rw [unindent]
  split
  · rfl
  · cases s.outerIndents.length with
    | zero => rfl
    | succ n => rw [closeBlocks, if_neg (by omega)]

section Ready

variable {s : Scanner} {tok : Text} {n : Nat}

/-- Further on in the same line. -/
theorem ready?_word (hrest : s.cursor.rest = List.replicate n ' ' ++ tok)
    (htok : startsToken tok)
    (hkeys : ∀ k, some k ∈ s.keys → PossibleKey.isFresh (s.cursor.skip n) k)
    (hindent : s.indent ≤ (s.cursor.column + n : Nat)) :
    s.ready? = some { s with cursor := s.cursor.skip n } := by
  rw [ready?, skipToToken_blanks hrest htok, dropStaleKeys?_fresh hkeys]
  exact congrArg some (unindent_of_le hindent)

/-- In one of the next lines, behind the break at the end of this one. -/
theorem ready?_line (hrest : s.cursor.rest = '\n' :: (List.replicate n ' ' ++ tok))
    (htok : startsToken tok) {o : Option PossibleKey} (hkeys : s.keys = [o])
    (h : ∀ k, o = some k → k.required = false ∧ k.line ≤ s.cursor.line) :
    s.ready? = some (unindent { s with
      cursor := ⟨tok, s.cursor.index + 1 + n, s.cursor.line + 1, n⟩
      keyAllowed := true, keys := [none] } n) := by
  have hlength : s.cursor.rest.length + 1 = (s.cursor.rest.length - 1) + 2 := by
    rw [hrest]
    simp
  have hflow : s.inFlow = false := by simp [inFlow, hkeys]
  have hdrop := dropStaleKeys?_ended (s := { s with
    cursor := ⟨tok, s.cursor.index + 1 + n, s.cursor.line + 1, n⟩
    keyAllowed := !s.inFlow || s.keyAllowed }) hkeys fun k hk =>
      ⟨(h k hk).1, Nat.lt_succ_of_le (h k hk).2⟩
  rw [ready?, hlength, skipToToken_line hrest htok, hdrop, hflow]
  rfl

/-- In a line that has been reached already. -/
theorem ready?_passed (htok : startsToken s.cursor.rest) {o : Option PossibleKey}
    (hkeys : s.keys = [o]) (h : ∀ k, o = some k → k.required = false ∧ k.line < s.cursor.line) :
    s.ready? = some (unindent { s with keys := [none] } s.cursor.column) := by
  have hrest : s.cursor.rest = List.replicate 0 ' ' ++ s.cursor.rest := rfl
  have hdrop := dropStaleKeys?_ended (s := { s with cursor := s.cursor.skip 0 }) hkeys h
  rw [ready?, skipToToken_blanks hrest htok, hdrop]
  rfl

end Ready

end Scaffold.Yaml.Scanner
