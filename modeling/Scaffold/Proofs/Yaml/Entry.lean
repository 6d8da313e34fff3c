import Scaffold.Proofs.Yaml.Value

/-!
The marks of entries: the dash in front of an item, and the key in front of a field with its colon
or with marks of its own. Main statements: what is read up to the value behind them
(`exists_reaches_entry`, `exists_reaches_value`, `exists_reaches_lines`, `exists_reaches_marked`).
-/

namespace Scaffold.Yaml.Scanner

open Relation Printer

/-! ## Collections that begin or go on -/

/-- The place within the collection that begins here, or goes on here. -/
def within (s : Scanner) (start : Token) : Scanner :=
  s.indentTo s.cursor.column s.tokens.length start

@[simp] theorem next_next (s : Scanner) (c d : Cursor) (ts us : List Token) :
    (s.next c ts).next d us = s.next d (ts ++ us) := by
  simp [next]

section Within

variable {s : Scanner} {start : Token}

theorem within_of_le (h : (s.cursor.column : Int) ≤ s.indent) : s.within start = s := by
  rw [within, indentTo, if_pos (by simp [h])]

theorem within_of_lt (hkeys : s.keys = [none]) (h : s.indent < s.cursor.column) :
    s.within start = { s.emit start with
      indent := s.cursor.column, outerIndents := s.indent :: s.outerIndents } := by
  have hflow : s.inFlow = false := by simp [inFlow, hkeys]
  rw [within, indentTo, if_neg (by simp [hflow, h]), insertToken, List.take_length,
    List.drop_length]
  rfl

theorem within_cases (start : Token) (hkeys : s.keys = [none]) {i : Nat} (hi : s.indent ≤ i)
    (hcolumn : s.cursor.column = i) : (s.within start).indent = i ∧
      (s.within start).cursor = s.cursor ∧ (s.within start).keyAllowed = s.keyAllowed ∧
      (s.within start).keys = [none] := by
  by_cases h : (s.cursor.column : Int) ≤ s.indent
  · rw [within_of_le h]
    exact ⟨by omega, rfl, rfl, hkeys⟩
  · rw [within_of_lt hkeys (by omega)]
    exact ⟨by rw [hcolumn], rfl, rfl, hkeys⟩

/-- A collection that ends in front of a line that is indented less. -/
theorem unindent_within (start : Token) (hkeys : s.keys = [none])
    (h : s.indent < s.cursor.column) {m : Int} (hm : m < s.cursor.column) (c : Cursor) (ts : List Token) :
    ((s.within start).next c ts).unindent m =
      (s.next c (start :: ts ++ [.blockEnd])).unindent m := by
  have hflow : ∀ (t : Scanner) us, (t.next c us).inFlow = false := fun t us => rfl
  rw [within_of_lt hkeys h, unindent, unindent, hflow, hflow]
  simp only [next, emit, List.length_cons, closeBlocks, Bool.false_eq_true, if_false]
  rw [if_pos (by omega)]
  simp

end Within

/-- A place behind some tokens of a collection. -/
structure Behind (base : Scanner) (ts : List Token) (v : Scanner) : Prop where
  next_eq : ∀ c us, v.next c us = base.next c (ts ++ us)
  keys : v.keys = [none]

theorem Behind.indent {base v : Scanner} {ts : List Token} (h : Behind base ts v) :
    v.indent = base.indent := by
  have := congrArg Scanner.indent (h.next_eq v.cursor [])
  exact this

theorem Behind.leads {s base v : Scanner} {ts us : List Token} {m : Nat} {tok : Text}
    (h : Behind base ts v) (hv : Reaches s v) (hpasses : Passes v us m tok) :
    Leads s base (ts ++ us) m tok := by
  obtain ⟨c, hrest, hcolumn, hreach⟩ := hpasses
  exact ⟨c, hrest, hcolumn, hv.trans (h.next_eq c us ▸ hreach)⟩

/-- In a line of the same collection, reading goes on. -/
theorem Leads.trans {s base : Scanner} {ts us : List Token} {k m : Nat} {next tok : Text}
    (h : Leads s base ts k next) (hindent : base.indent ≤ k)
    (hnext : ∀ v : Scanner, v.keys = [none] → v.keyAllowed = true → v.indent = base.indent →
      v.cursor.column = k → v.cursor.rest = next → Passes v us m tok) :
    Leads s base (ts ++ us) m tok := by
  obtain ⟨c, hrest, hcolumn, hreach⟩ := h
  rw [unindent_of_le (show (base.next c ts).indent ≤ k from hindent)] at hreach
  obtain ⟨d, hdrest, hdcolumn, hend⟩ := hnext (base.next c ts) rfl rfl rfl hcolumn hrest
  rw [next_next] at hend
  exact ⟨d, hdrest, hdcolumn, hreach.trans hend⟩

/-! ## The first characters of what is written -/

theorem scalar_cons (t : Text) : ∃ c r, scalar t = c :: r ∧ isPlainChar c = true ∧ c ≠ ' ' ∧
    c ≠ '#' := by
  cases hstyle : Style.of t with
  | plain =>
    obtain ⟨_, hreads, hadmits⟩ := admits_of_plain hstyle
    cases t with
    | nil => cases hreads
    | cons c r =>
      obtain ⟨hplain, hspace, hmark, _⟩ := admitsPlain_cons hadmits
      refine ⟨c, r, by rw [scalar, hstyle], hplain, hspace, ?_⟩
      rintro rfl
      simp at hmark
  | singleQuoted => exact ⟨'\'', _, by rw [scalar, hstyle]; rfl, by decide, by decide, by decide⟩
  | doubleQuoted => exact ⟨'"', _, by rw [scalar, hstyle]; rfl, by decide, by decide, by decide⟩
  | literal => exact ⟨'|', _, by rw [scalar, hstyle]; rfl, by decide, by decide, by decide⟩

theorem startsToken_indentBy {t : Text} (h : startsToken t) (hne : t ≠ []) (n : Nat) (after : Text) :
    startsToken (indentBy n false t ++ after) := by
  obtain ⟨c, r, rfl⟩ := List.exists_cons_of_ne_nil hne
  rw [indentBy_false_cons, List.cons_append]
  exact startsToken_cons.mpr (startsToken_cons.mp h)

theorem startsToken_append {t : Text} (h : startsToken t) (hne : t ≠ []) (after : Text) :
    startsToken (t ++ after) := by
  obtain ⟨c, r, rfl⟩ := List.exists_cons_of_ne_nil hne
  exact startsToken_cons.mpr (startsToken_cons.mp h)

theorem startsToken_scalar (t : Text) : startsToken (scalar t) ∧ scalar t ≠ [] := by
  obtain ⟨c, r, hscalar, hc⟩ := scalar_cons t
  rw [hscalar]
  exact ⟨startsToken_cons.mpr hc, List.cons_ne_nil c r⟩

theorem startsToken_of_isBareWord {t : Text} (h : IsBareWord t) : startsToken t ∧ t ≠ [] := by
  have hhead : ∃ c r, t = c :: r := by
    obtain ⟨c, r, rfl | rfl, _⟩ := h.head
    · exact ⟨c, r, rfl⟩
    · exact ⟨'-', c :: r, rfl⟩
  obtain ⟨c, r, rfl⟩ := hhead
  obtain ⟨hprint, hbreak, hspace, _, hnumber, _⟩ :=
    isBareChar_cases (List.all_eq_true.mp h.bare c (List.mem_cons_self ..))
  refine ⟨startsToken_cons.mpr ⟨by simp [isPlainChar, hprint, hbreak], ?_, hnumber⟩,
    List.cons_ne_nil c r⟩
  rintro rfl
  cases hspace

theorem startsToken_block (d : Data) : startsToken (block d) ∧ block d ≠ [] := by
  have happend : ∀ t after : Text, startsToken t ∧ t ≠ [] →
      startsToken (t ++ after) ∧ t ++ after ≠ [] := fun t after h =>
    ⟨startsToken_append h.1 h.2 after, by simp [h.2]⟩
  have hcons : ∀ (c : Char) (t : Text), isPlainChar c = true ∧ c ≠ ' ' ∧ c ≠ '#' →
      startsToken (c :: t) ∧ c :: t ≠ [] := fun c t h =>
    ⟨startsToken_cons.mpr h, List.cons_ne_nil c t⟩
  cases d with
  | null => exact hcons 'n' _ (by decide)
  | bool b => cases b <;> exact hcons _ _ (by decide)
  | int n =>
    rw [block]
    exact happend _ _ (startsToken_of_isBareWord (isBareWord_intText n))
  | float x =>
    rw [block]
    exact happend _ _ (startsToken_of_isBareWord (isBareWord_floatText x))
  | text t =>
    rw [block, endLine]
    split
    · exact startsToken_scalar t
    · exact happend _ _ (startsToken_scalar t)
  | list items =>
    cases items with
    | nil => exact hcons '[' _ (by decide)
    | cons d ds =>
      rw [block_items, blockItems_cons]
      exact hcons '-' _ (by decide)
  | object fields =>
    cases fields with
    | nil => exact hcons '\x7b' _ (by decide)
    | cons field fields =>
      obtain ⟨key, d⟩ := field
      rw [block_fields, blockFields_cons]
      refine happend _ _ ?_
      cases hkey : isSimpleKey key with
      | false =>
        rw [entry_marked _ hkey]
        exact hcons '?' _ (by decide)
      | true =>
        unfold entry
        rw [if_pos hkey]
        exact happend _ _ (startsToken_scalar key)

theorem startsToken_blockItems (d : Data) (ds : List Data) :
    startsToken (blockItems (d :: ds)) ∧ blockItems (d :: ds) ≠ [] :=
  block_items d ds ▸ startsToken_block (.list (d :: ds))

theorem startsToken_blockFields (field : Text × Data) (fields : List (Text × Data)) :
    startsToken (blockFields (field :: fields)) ∧ blockFields (field :: fields) ≠ [] :=
  block_fields field fields ▸ startsToken_block (.object (field :: fields))

theorem indentBy_true {t : Text} (h : startsToken t ∧ t ≠ []) (n : Nat) :
    indentBy n true t = List.replicate n ' ' ++ indentBy n false t := by
  obtain ⟨c, r, rfl⟩ := List.exists_cons_of_ne_nil h.2
  exact indentBy_true_cons n (ne_of_isPlainChar (startsToken_cons.mp h.1).1).1 r

/-- One blank further on, a word is read in the same collection. -/
theorem ready?_next {s : Scanner} {c : Cursor} (ts : List Token) {i : Nat} (hi : s.indent = i)
    (hcolumn : i ≤ c.column) {text : Text} (hrest : c.rest = ' ' :: text)
    (htext : startsToken text) : (s.next c ts).ready? = some (s.next (c.skip 1) ts) := by
  refine ready?_word (n := 1) hrest htext (fun k hk => ?_) ?_
  · simp [next] at hk
  · simp only [next]
    omega

/-! ## Entries of a list -/

section Entry

variable {s : Scanner} (hkeys : s.keys = [none]) (hallowed : s.keyAllowed = true) {i : Nat}
  (hi : s.indent ≤ i) (hcolumn : s.cursor.column = i)
include hkeys hallowed hi hcolumn

theorem fetchAt?_dash {text : Text} (hrest : s.cursor.rest = '-' :: ' ' :: text) :
    s.fetchAt? '-' = some
      ((s.within .blockSequenceStart).next (s.cursor.skip 1) [.blockEntry]) := by
  obtain ⟨_, hcursor, _, hnone⟩ := within_cases .blockSequenceStart hkeys hi hcolumn
  have hmarker : s.cursor.isAtMarker = false := by simp [Cursor.isAtMarker, hrest]
  have hgap : isGap (s.cursor.peekAt 1) = true := by simp [Cursor.peekAt, hrest, isGap, isBlank]
  have hremove : (s.within .blockSequenceStart).removeKey? =
      some (s.within .blockSequenceStart) := by
    rw [removeKey?, hnone]
  rw [fetchAt?_entry hmarker hgap, fetchBlockEntry?, if_neg (by simp [hallowed])]
  change Option.bind (s.within .blockSequenceStart).removeKey? _ = _
  rw [hremove, Option.bind_some, next, ← hnone, ← hcursor]
  rfl

/-- The mark in front of an item. -/
theorem exists_reaches_entry {text : Text} (hrest : s.cursor.rest = '-' :: ' ' :: text)
    (htext : startsToken text) : ∃ v, Reaches s v ∧ v.cursor.rest = text ∧
      v.cursor.column = i + 2 ∧ v.keyAllowed = true ∧
      Behind (s.within .blockSequenceStart) [.blockEntry] v := by
  obtain ⟨hindent, _⟩ := within_cases .blockSequenceStart hkeys hi hcolumn
  have hfetch := fetchAt?_dash hkeys hallowed hi hcolumn hrest
  have hready := ready?_next [.blockEntry] hindent (c := s.cursor.skip 1)
    (by rw [Cursor.skip_column]; omega) (by rw [Cursor.skip_rest, hrest]; rfl) htext
  rw [Cursor.skip_skip] at hready
  refine ⟨_, .single (steps_of_fetch hrest hfetch hready ?_), ?_, ?_, rfl, ?_, rfl⟩
  · simp [next, hrest]
  · simp [next, hrest]
  · simp only [next, Cursor.skip_column]
    omega
  · intro c us
    simp

end Entry

/-! ## The length of keys -/

theorem length_le_bytes (t : Text) : t.length ≤ Text.bytes t := by
  induction t with
  | nil => exact Nat.le_refl 0
  | cons c t ih =>
    have := c.utf8Size_pos
    rw [List.length_cons, Text.bytes_cons]
    omega

theorem length_flatMap_le {write : Char → Text} {k : Nat}
    (h : ∀ c, (write c).length ≤ k * c.utf8Size) (t : Text) :
    (t.flatMap write).length ≤ k * Text.bytes t := by
  induction t with
  | nil => exact Nat.zero_le _
  | cons c t ih =>
    have := h c
    rw [List.flatMap_cons, List.length_append, Text.bytes_cons, Nat.mul_add]
    omega

theorem length_escaped_le (c : Char) : (escaped c).length ≤ 4 * c.utf8Size := by
  have hpos := c.utf8Size_pos
  have hvalue : ∀ v : UInt32, c.val ≤ v → c.toNat ≤ v.toNat := fun v h => h
  have hwide : 0x100 ≤ c.toNat → c.utf8Size ≠ 1 := fun h hsize => by
    have : c.toNat ≤ 127 := hvalue 127 (Char.utf8Size_eq_one_iff.mp hsize)
    omega
  have hwidest : 0x10000 ≤ c.toNat → c.utf8Size = 4 := fun h => by
    obtain hsize | hsize | hsize | hsize := c.utf8Size_eq
    · have : c.toNat ≤ 127 := hvalue 127 (Char.utf8Size_eq_one_iff.mp hsize)
      omega
    · have : c.toNat ≤ 2047 := hvalue 2047 (Char.utf8Size_eq_two_iff.mp hsize).2
      omega
    · have : c.toNat ≤ 65535 := hvalue 65535 (Char.utf8Size_eq_three_iff.mp hsize).2
      omega
    · exact hsize
  rw [escaped]
  split
  · simp only [List.length_singleton]
    omega
  · split
    · simp only [List.length_cons, List.length_nil]
      omega
    · split
      · simp only [List.length_cons, length_hexText]
        omega
      · split
        · have := hwide (by omega)
          simp only [List.length_cons, length_hexText]
          omega
        · have := hwidest (by omega)
          simp only [List.length_cons, length_hexText]
          omega

/-- A key without a mark is short enough to be found again. -/
theorem length_scalar_le {key : Text} (h : isSimpleKey key = true) :
    (scalar key).length ≤ 1024 := by
  simp only [isSimpleKey, Bool.and_eq_true, Bool.not_eq_true', decide_eq_true_eq] at h
  obtain ⟨hunbroken, hbytes⟩ := h
  rw [scalar]
  split
  · have := length_le_bytes key
    omega
  · have hdoubled : ∀ c : Char, (if c = '\'' then ['\'', '\''] else [c]).length ≤ 2 * c.utf8Size :=
      fun c => by
        have := c.utf8Size_pos
        split <;> simp <;> omega
    have := length_flatMap_le hdoubled key
    simp only [List.length_append, List.length_cons, List.length_nil]
    omega
  · have := length_flatMap_le length_escaped_le key
    simp only [List.length_append, List.length_cons, List.length_nil]
    omega
  · next hstyle =>
    have := List.any_eq_false.mp hunbroken _ (admits_of_literal hstyle).1
    simp [isBreak] at this

/-! ## Keys -/

/-- The scanner with the possible key that begins here. -/
def keyed (s : Scanner) (required : Bool) : Scanner :=
  { s with keys := [some
    ⟨required, s.tokens.length, s.cursor.index, s.cursor.line, s.cursor.column⟩] }

/-- The place behind a scalar of one line, which may be a key. -/
def behindScalar (s : Scanner) (key : Text) (required : Bool) : Scanner :=
  { s.keyed required with
    cursor := s.cursor.skip (scalar key).length
    tokens := s.tokens ++ [scalarToken key]
    keyAllowed := false }

theorem saveKey?_eq {s : Scanner} (hkeys : s.keys = [none]) (hallowed : s.keyAllowed = true) :
    ∃ required, s.saveKey? = some (s.keyed required) := by
  have hremove : s.removeKey? = some s := by rw [removeKey?, hkeys]
  unfold saveKey?
  rw [if_neg (by simp [hallowed])]
  simp only [hremove, bind, Option.bind, hkeys]
  exact ⟨_, rfl⟩

theorem isAtMarker_of_plain {key after : Text} (h : admitsPlain key = true) {c : Cursor}
    (hrest : c.rest = key ++ ':' :: after) : c.isAtMarker = false := by
  have hmarkup : startsAsMarkup key = false := by
    simp only [admitsPlain, Bool.and_eq_true, Bool.not_eq_true'] at h
    exact h.1.2
  have hmarker : ∀ d : Char, d ≠ ':' → (key ++ ':' :: after).take 3 = [d, d, d] →
      [d, d, d].isPrefixOf key = true := fun d hd htake => by
    obtain _ | ⟨a, _ | ⟨b, _ | ⟨e, r⟩⟩⟩ := key
    · simp [Ne.symm hd] at htake
    · simp [Ne.symm hd] at htake
    · simp [Ne.symm hd] at htake
    · simp only [List.cons_append, List.take_succ_cons, List.take_zero] at htake
      obtain ⟨rfl, rfl, rfl⟩ : a = d ∧ b = d ∧ e = d := by simpa using htake
      simp
  simp only [startsAsMarkup, Bool.or_eq_false_iff] at hmarkup
  have hdashes : (key ++ ':' :: after).take 3 ≠ ['-', '-', '-'] := fun heq =>
    absurd (hmarkup.1.2.symm.trans (hmarker '-' (by decide) heq)) (by decide)
  have hdots : (key ++ ':' :: after).take 3 ≠ ['.', '.', '.'] := fun heq =>
    absurd (hmarkup.2.symm.trans (hmarker '.' (by decide) heq)) (by decide)
  simp [Cursor.isAtMarker, hrest, hdashes, hdots]

section Scalar

variable {s : Scanner} {required : Bool} (hsave : s.saveKey? = some (s.keyed required))
  {key after : Text} (hrest : s.cursor.rest = scalar key ++ ':' :: after)
include hsave hrest

/-- A key in quotes is read up to its colon. -/
theorem fetchAt?_quotedKey (hstyle : Style.of key = .singleQuoted ∨ Style.of key = .doubleQuoted)
    (hunbroken : key.any isBreak = false) :
    ∃ c t, s.cursor.rest = c :: t ∧ s.fetchAt? c = some (s.behindScalar key required) := by
  have hrest' : s.cursor.rest = indentBy 1 false (scalar key) ++ ':' :: after := by
    have := indentBy_of_no_break 1 (scalar_no_break hunbroken) []
    rw [List.append_nil] at this
    rw [hrest, this]
    simp [indentBy]
  obtain ⟨q, hq, ⟨t, ht⟩, d, hread, _, _, hsame⟩ :=
    quotedScalar?_scalar hstyle Nat.one_pos (by simp) hrest'
  refine ⟨q, t, ht, ?_⟩
  have hmarker : s.cursor.isAtMarker = false := isAtMarker_of_head ht (by
    obtain rfl | rfl := hq <;> decide)
  have htoken : scalarToken key = .scalar false key := by
    obtain hstyle | hstyle := hstyle
    · rw [scalarToken, hstyle]; rfl
    · rw [scalarToken, hstyle]; rfl
  rw [fetchAt?_quote hq hmarker, fetchQuoted?, hsave, behindScalar, htoken, ← hsame hunbroken]
  simp only [bind, Option.bind, keyed, hread]
  rfl

/-- A key without quotes is read up to its colon. -/
theorem fetchAt?_plainKey (hstyle : Style.of key = .plain) (hkeys : s.keys = [none])
    (hindent : s.indent ≤ s.cursor.column) (hafter : isGap after.head? = true) :
    ∃ c t, s.cursor.rest = c :: t ∧ s.fetchAt? c = some (s.behindScalar key required) := by
  obtain ⟨_, hreads, hadmits⟩ := admits_of_plain hstyle
  have hscalar : scalar key = key := by rw [scalar, hstyle]
  have htoken : scalarToken key = .scalar true key := by rw [scalarToken, hstyle]; rfl
  rw [hscalar] at hrest
  have hflow : s.inFlow = false := by simp [inFlow, hkeys]
  have hmarker : s.cursor.isAtMarker = false := isAtMarker_of_plain hadmits hrest
  have hne : key ≠ [] := by
    rintro rfl
    cases hreads
  have hread := plainScalar?_key (s.indent + 1).toNat
    (s.cursor.rest.length + 1) (isPlain_of_admitsPlain hadmits hne) hrest hafter hmarker
    (by omega) (by rw [hrest, List.length_append]; omega)
  obtain ⟨c, r, rfl⟩ := List.exists_cons_of_ne_nil hne
  refine ⟨c, _, hrest, ?_⟩
  rw [fetchAt?_plain hadmits hrest hflow hmarker, fetchPlain?, hsave, behindScalar, hscalar, htoken]
  simp only [bind, Option.bind]
  rw [show (s.keyed required).inFlow = false from rfl]
  simp only [keyed, hread]
  rfl

end Scalar

section Key

variable {s : Scanner} (hkeys : s.keys = [none]) (hallowed : s.keyAllowed = true) {i : Nat}
  (hi : s.indent ≤ i) (hcolumn : s.cursor.column = i)
include hkeys hallowed hi hcolumn

/-- The scalar of a key is a possible key. -/
theorem fetchAt?_scalar {key after : Text} (hkey : isSimpleKey key = true)
    (hrest : s.cursor.rest = scalar key ++ ':' :: after) (hafter : isGap after.head? = true) :
    ∃ c t required, s.cursor.rest = c :: t ∧
      s.fetchAt? c = some (s.behindScalar key required) := by
  obtain ⟨required, hsave⟩ := saveKey?_eq hkeys hallowed
  have hunbroken : key.any isBreak = false := by
    simp only [isSimpleKey, Bool.and_eq_true, Bool.not_eq_true'] at hkey
    exact hkey.1
  cases hstyle : Style.of key with
  | plain =>
    obtain ⟨c, t, hfetch⟩ := fetchAt?_plainKey hsave hrest hstyle hkeys (by omega) hafter
    exact ⟨c, t, required, hfetch⟩
  | singleQuoted =>
    obtain ⟨c, t, hfetch⟩ := fetchAt?_quotedKey hsave hrest (.inl hstyle) hunbroken
    exact ⟨c, t, required, hfetch⟩
  | doubleQuoted =>
    obtain ⟨c, t, hfetch⟩ := fetchAt?_quotedKey hsave hrest (.inr hstyle) hunbroken
    exact ⟨c, t, required, hfetch⟩
  | literal =>
    have := List.any_eq_false.mp hunbroken _ (admits_of_literal hstyle).1
    simp [isBreak] at this

/-- The place behind a key and its colon. -/
def behindKey (s : Scanner) (key : Text) : Scanner :=
  { (s.within .blockMappingStart).next (s.cursor.skip ((scalar key).length + 1))
      [.key, scalarToken key, .value] with keyAllowed := false }

/-- The colon makes the scalar in front of it a key, and opens the object if it is the first one. -/
theorem exists_steps_key {key after : Text} (hkey : isSimpleKey key = true)
    (hrest : s.cursor.rest = scalar key ++ ':' :: after) (hafter : isGap after.head? = true) :
    ∃ b, Steps s b ∧ b.cursor.rest = ':' :: after ∧ b.fetchAt? ':' = some (s.behindKey key) := by
  obtain ⟨c, t, required, hstart, hfetch⟩ :=
    fetchAt?_scalar hkeys hallowed hi hcolumn hkey hrest hafter
  have hcolon : (s.behindScalar key required).cursor.rest = ':' :: after := by
    simp [behindScalar, hrest]
  have hlength := length_scalar_le hkey
  have hpos : 0 < (scalar key).length := List.length_pos_iff.mpr (startsToken_scalar key).2
  have hready : (s.behindScalar key required).ready? = some (s.behindScalar key required) := by
    refine ready?_word (n := 0) hcolon (startsToken_cons.mpr (by decide)) (fun k hk => ?_) ?_
    · obtain rfl : k = _ := by simpa [behindScalar, keyed] using hk
      exact ⟨Nat.le_refl _, by simp [behindScalar]; omega⟩
    · simp only [behindScalar, keyed, Cursor.skip_column]
      omega
  have hmarker : (s.behindScalar key required).cursor.isAtMarker = false :=
    isAtMarker_of_column (by simp [behindScalar, hpos])
  have hgap : isGap ((s.behindScalar key required).cursor.peekAt 1) = true := by
    rwa [Cursor.peekAt, hcolon, List.getElem?_cons_succ, ← List.head?_eq_getElem?]
  refine ⟨_, steps_of_fetch hstart hfetch hready ?_, hcolon, ?_⟩
  · have := congrArg List.length (hrest.symm.trans hstart)
    simp only [List.length_append, List.length_cons] at this
    rw [hcolon, List.length_cons]
    omega
  · rw [fetchAt?_value hmarker hgap, fetchValue?, behindScalar, keyed, behindKey]
    by_cases h : (s.cursor.column : Int) ≤ s.indent
    · rw [within_of_le h]
      simp [insertToken, indentTo, inFlow, h, next, emit, skip]
    · rw [within_of_lt hkeys (by omega)]
      simp [insertToken, indentTo, inFlow, h, next, emit, skip]

/-- A key with its value on the same line. -/
theorem exists_reaches_value {key text : Text} (hkey : isSimpleKey key = true)
    (hrest : s.cursor.rest = scalar key ++ ':' :: ' ' :: text) (htext : startsToken text) :
    ∃ v, Reaches s v ∧ v.cursor.rest = text ∧ i < v.cursor.column ∧
      Behind (s.within .blockMappingStart) [.key, scalarToken key, .value] v := by
  obtain ⟨b, hstep, hcolon, hfetch⟩ :=
    exists_steps_key hkeys hallowed hi hcolumn hkey hrest (by rfl)
  obtain ⟨hindent, _⟩ := within_cases .blockMappingStart hkeys hi hcolumn
  have hblank : (s.behindKey key).cursor.rest = ' ' :: text := by
    rw [behindKey, next, Cursor.skip_rest, hrest, List.drop_append]
    simp
  have hfresh : ∀ k, some k ∈ (s.behindKey key).keys →
      PossibleKey.isFresh ((s.behindKey key).cursor.skip 1) k := by
    intro k hk
    simp [behindKey, next] at hk
  have hready := ready?_word (s := s.behindKey key) (n := 1) hblank htext hfresh (by
    simp only [behindKey, next, Cursor.skip_column, hindent]
    omega)
  refine ⟨_, .head hstep (.single (steps_of_fetch hcolon hfetch hready ?_)), ?_, ?_, ?_, rfl⟩
  · rw [Cursor.skip_rest, hblank]
    simp
  · rw [Cursor.skip_rest, hblank]
    rfl
  · simp only [behindKey, next, Cursor.skip_column]
    omega
  · intro c us
    simp [behindKey, next]

/-- A key with its value in the lines behind it. -/
theorem exists_reaches_lines {key text : Text} {n : Nat} (hkey : isSimpleKey key = true)
    (hrest : s.cursor.rest = scalar key ++ ':' :: '\n' :: (List.replicate n ' ' ++ text))
    (htext : startsToken text) (hn : i ≤ n) : ∃ v, Reaches s v ∧ v.cursor.rest = text ∧
      v.cursor.column = n ∧ v.keyAllowed = true ∧
      Behind (s.within .blockMappingStart) [.key, scalarToken key, .value] v := by
  obtain ⟨b, hstep, hcolon, hfetch⟩ :=
    exists_steps_key hkeys hallowed hi hcolumn hkey hrest (by rfl)
  obtain ⟨hindent, _⟩ := within_cases .blockMappingStart hkeys hi hcolumn
  have hbreak : (s.behindKey key).cursor.rest = '\n' :: (List.replicate n ' ' ++ text) := by
    rw [behindKey, next, Cursor.skip_rest, hrest, List.drop_append]
    simp
  have hready := ready?_line (s := s.behindKey key) (o := none) hbreak htext rfl
    (fun _ h => by cases h)
  rw [unindent_of_le (by simp only [behindKey, next, hindent]; omega)] at hready
  refine ⟨_, .head hstep (.single (steps_of_fetch hcolon hfetch hready ?_)), rfl, rfl, rfl, ?_, rfl⟩
  · simp only [List.length_cons, List.length_append]
    omega
  · intro c us
    simp [behindKey, next]

theorem fetchAt?_question {text : Text} (hrest : s.cursor.rest = '?' :: ' ' :: text) :
    s.fetchAt? '?' = some ((s.within .blockMappingStart).next (s.cursor.skip 1) [.key]) := by
  obtain ⟨_, hcursor, _, hnone⟩ := within_cases .blockMappingStart hkeys hi hcolumn
  have hmarker : s.cursor.isAtMarker = false := by simp [Cursor.isAtMarker, hrest]
  have hgap : isGap (s.cursor.peekAt 1) = true := by simp [Cursor.peekAt, hrest, isGap, isBlank]
  have hremove : (s.within .blockMappingStart).removeKey? = some (s.within .blockMappingStart) := by
    rw [removeKey?, hnone]
  have hflow : (s.within .blockMappingStart).inFlow = false := by simp [inFlow, hnone]
  rw [fetchAt?_key hmarker hgap, fetchKey?, if_neg (by simp [hallowed])]
  change Option.bind (s.within .blockMappingStart).removeKey? _ = _
  rw [hremove, Option.bind_some, hflow, next, ← hnone, ← hcursor]
  rfl

omit hi hcolumn in
/-- The colon of a marked key, in an object that has begun. -/
theorem fetchAt?_colon {text : Text} (hrest : s.cursor.rest = ':' :: ' ' :: text)
    (hindent : (s.cursor.column : Int) ≤ s.indent) :
    s.fetchAt? ':' = some (s.next (s.cursor.skip 1) [.value]) := by
  have hopen : s.indentTo s.cursor.column s.tokens.length .blockMappingStart = s :=
    within_of_le hindent
  have hflow : s.inFlow = false := by simp [inFlow, hkeys]
  have hmarker : s.cursor.isAtMarker = false := isAtMarker_of_head hrest (by decide)
  have hgap : isGap (s.cursor.peekAt 1) = true := by simp [Cursor.peekAt, hrest, isGap, isBlank]
  rw [fetchAt?_value hmarker hgap]
  simp only [fetchValue?, hkeys, hallowed, hflow, hopen, Bool.not_true, Bool.and_false,
    Bool.false_eq_true, if_false]
  rw [next, ← hkeys]
  rfl

/-- A key with a mark of its own. -/
theorem exists_reaches_marked {key text : Text}
    (hrest : s.cursor.rest = '?' :: ' ' :: (indentBy (i + 2) false (block (.text key)) ++
      (List.replicate i ' ' ++ ':' :: ' ' :: text)))
    (htext : startsToken text) : ∃ v, Reaches s v ∧ v.cursor.rest = text ∧
      v.cursor.column = i + 2 ∧ v.keyAllowed = true ∧
      Behind (s.within .blockMappingStart) [.key, scalarToken key, .value] v := by
  have hfetch := fetchAt?_question hkeys hallowed hi hcolumn hrest
  obtain ⟨hindent, _⟩ := within_cases .blockMappingStart hkeys hi hcolumn
  obtain ⟨base, hbase⟩ : ∃ base, base = s.within .blockMappingStart := ⟨_, rfl⟩
  rw [← hbase] at hfetch hindent ⊢
  have hready := ready?_next [.key] hindent (c := s.cursor.skip 1)
    (by rw [Cursor.skip_column]; omega) (by rw [Cursor.skip_rest, hrest]; rfl)
    (startsToken_indentBy (startsToken_block _).1 (startsToken_block _).2 _ _)
  rw [Cursor.skip_skip] at hready
  have hfirst : Steps s (base.next (s.cursor.skip 2) [.key]) := by
    refine steps_of_fetch hrest hfetch hready ?_
    simp [next, hrest]
  have hcolon : startsToken (':' :: ' ' :: text) := startsToken_cons.mpr (by decide)
  obtain ⟨c, hc, hccolumn, hscalar⟩ := passes_text (s := base.next (s.cursor.skip 2) [.key]) rfl
    hindent (by simp only [next, Cursor.skip_column]; omega) (Nat.le_refl i) hcolon
    (by simp only [next, Cursor.skip_rest, hrest]; rfl)
  obtain ⟨k, hk⟩ : ∃ k, k = base.next c [.key, scalarToken key] := ⟨_, rfl⟩
  have hkindent : k.indent = i := by rw [hk, ← hindent]; rfl
  have hkcursor : k.cursor = c := by rw [hk]; rfl
  rw [next_next, List.singleton_append, ← hk, unindent_of_le (by omega)] at hscalar
  have hvalue : k.fetchAt? ':' = some (k.next (c.skip 1) [.value]) := by
    rw [← hkcursor]
    exact fetchAt?_colon (by rw [hk]; rfl) (by rw [hk]; rfl) (hkcursor ▸ hc)
      (by rw [hkcursor]; omega)
  have hlast := ready?_next (s := k) [.value] hkindent (c := c.skip 1)
    (by rw [Cursor.skip_column]; omega) (by rw [Cursor.skip_rest, hc]; rfl) htext
  rw [Cursor.skip_skip] at hlast
  refine ⟨_, (ReflTransGen.head hfirst hscalar).tail
    (steps_of_fetch (hkcursor ▸ hc) hvalue hlast ?_), ?_, ?_, rfl, ?_, rfl⟩
  · simp [next, hc]
  · simp [next, hc]
  · simp only [next, Cursor.skip_column]
    omega
  · intro d us
    simp [hk]

end Key

end Scaffold.Yaml.Scanner
