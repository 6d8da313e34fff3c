import Scaffold.Proofs.Yaml.Entry

/-!
The tokens of a written value, however deep it stands in others. What is read of a value depends on
what is read of the values in it (`readableLines_items`, `readableLines_fields`), and so every value
is read (`readable`). Main statement: the tokens of a written block are those of its value
(`tokens?_block`).
-/

namespace Scaffold.Yaml.Scanner

open Relation Printer

/-! ## What follows an entry -/

/-- Behind an entry stands the next one, or else the word behind the collection. -/
theorem exists_following {more : Text} (hmore : more = [] ∨ startsToken more ∧ more ≠ []) {i m : Nat}
    (hm : m ≤ i) {tok : Text} (htok : startsToken tok) : ∃ k next,
      indentBy i true more ++ (List.replicate m ' ' ++ tok) = List.replicate k ' ' ++ next ∧
      startsToken next ∧ k ≤ i ∧
      (more = [] → k = m ∧ next = tok) ∧
      (more ≠ [] → k = i ∧ next = indentBy i false more ++ (List.replicate m ' ' ++ tok)) := by
  obtain rfl | hmore := hmore
  · exact ⟨m, tok, rfl, htok, hm, fun _ => ⟨rfl, rfl⟩, fun h => absurd rfl h⟩
  · refine ⟨i, _, ?_, startsToken_indentBy hmore.1 hmore.2 i _, Nat.le_refl i,
      fun h => absurd h hmore.2, fun _ => ⟨rfl, rfl⟩⟩
    rw [indentBy_true hmore, List.append_assoc]

theorem blockItems_cases (ds : List Data) :
    blockItems ds = [] ∨ startsToken (blockItems ds) ∧ blockItems ds ≠ [] := by
  cases ds with
  | nil => exact .inl rfl
  | cons d ds => exact .inr (startsToken_blockItems d ds)

theorem blockFields_cases (fields : List (Text × Data)) :
    blockFields fields = [] ∨ startsToken (blockFields fields) ∧ blockFields fields ≠ [] := by
  cases fields with
  | nil => exact .inl rfl
  | cons field fields => exact .inr (startsToken_blockFields field fields)

theorem indentBy_blockItems (i : Nat) (d : Data) (ds : List Data) :
    indentBy i false (blockItems (d :: ds)) =
      '-' :: ' ' :: (indentBy (i + 2) false (block d) ++ indentBy i true (blockItems ds)) := by
  rw [blockItems_cons, indentBy_false_cons, show isBreak '-' = false from rfl,
    indentBy_false_cons, show isBreak ' ' = false from rfl, indentBy_append, indentBy_indentBy,
    endsLine_indentBy, endsLine_block, Nat.add_comm]

theorem indentBy_blockFields (i : Nat) (key : Text) (d : Data) (fields : List (Text × Data)) :
    indentBy i false (blockFields ((key, d) :: fields)) =
      indentBy i false (entry key d (block d)) ++ indentBy i true (blockFields fields) := by
  rw [blockFields_cons, indentBy_append, endsLine_entry _ _ fun start => endsLine_block start d]

/-! ## The entry of an object -/

section Entry

variable {i : Nat} {key : Text} (hkey : isSimpleKey key = true)
include hkey

theorem indentBy_simple (after : Text) :
    indentBy i false (scalar key ++ ':' :: after) = scalar key ++ ':' :: indentBy i false after := by
  have hunbroken : key.any isBreak = false := by
    simp only [isSimpleKey, Bool.and_eq_true, Bool.not_eq_true'] at hkey
    exact hkey.1
  rw [indentBy_of_no_break _ (scalar_no_break hunbroken), indentBy_false_cons]
  rfl

theorem indentBy_entry_flat {d : Data} (hd : isFlat d = true) :
    indentBy i false (entry key d (block d)) =
      scalar key ++ ':' :: ' ' :: indentBy (i + 2) false (block d) := by
  rw [entry_flat _ hkey hd, indentBy_simple hkey, indentBy_false_cons,
    show isBreak ' ' = false from rfl, indentBy_indentBy, Nat.add_comm]

theorem indentBy_entry_items (x : Data) (xs : List Data) :
    indentBy i false (entry key (.list (x :: xs)) (block (.list (x :: xs)))) =
      scalar key ++ ':' :: '\n' ::
        (List.replicate i ' ' ++ indentBy i false (blockItems (x :: xs))) := by
  rw [entry_items _ hkey, indentBy_simple hkey, indentBy_false_cons,
    show isBreak '\n' = true from rfl, block_items, indentBy_true (startsToken_blockItems x xs)]

theorem indentBy_entry_fields (x : Text × Data) (xs : List (Text × Data)) :
    indentBy i false (entry key (.object (x :: xs)) (block (.object (x :: xs)))) =
      scalar key ++ ':' :: '\n' ::
        (List.replicate (i + 2) ' ' ++ indentBy (i + 2) false (block (.object (x :: xs)))) := by
  rw [entry_fields _ hkey, indentBy_simple hkey, indentBy_false_cons,
    show isBreak '\n' = true from rfl, indentBy_indentBy, Nat.add_comm 2,
    indentBy_true (startsToken_block _)]

end Entry

theorem indentBy_entry_marked {i : Nat} {key : Text} (hkey : isSimpleKey key = false) (d : Data) :
    indentBy i false (entry key d (block d)) =
      '?' :: ' ' :: (indentBy (i + 2) false (block (.text key)) ++
        (List.replicate i ' ' ++ ':' :: ' ' :: indentBy (i + 2) false (block d))) := by
  rw [entry_marked _ hkey, indentBy_false_cons, show isBreak '?' = false from rfl,
    indentBy_false_cons, show isBreak ' ' = false from rfl, indentBy_append, indentBy_indentBy,
    endsLine_indentBy, endsLine_block, indentBy_true_cons _ rfl, indentBy_false_cons,
    show isBreak ':' = false from rfl, indentBy_false_cons, show isBreak ' ' = false from rfl,
    indentBy_indentBy, Nat.add_comm]

/-! ## Values -/

/-- What is read of a value, wherever it stands. -/
def Readable (d : Data) : Prop :=
  ∀ ⦃s : Scanner⦄ ⦃i m : Nat⦄ ⦃tok : Text⦄, s.keys = [none] → s.indent = i → i < s.cursor.column →
    m ≤ i → startsToken tok → (isFlat d = false → s.keyAllowed = true ∧ s.cursor.column = i + 2) →
    s.cursor.rest = indentBy (i + 2) false (block d) ++ (List.replicate m ' ' ++ tok) →
    Passes s (stream d) m tok

/-- What is read of the entries of a collection, one in each line. -/
def ReadableLines (lines : Text) (start : Token) (ts : List Token) : Prop :=
  ∀ ⦃s : Scanner⦄ ⦃i m : Nat⦄ ⦃tok : Text⦄, s.keys = [none] → s.keyAllowed = true → s.indent ≤ i →
    s.cursor.column = i → m ≤ i → startsToken tok →
    s.cursor.rest = indentBy i false lines ++ (List.replicate m ' ' ++ tok) →
    Leads s (s.within start) ts m tok

theorem ReadableLines.readable {lines : Text} {start : Token} {ts : List Token}
    (h : ReadableLines lines start ts) {d : Data} (hd : isFlat d = false) (hblock : block d = lines)
    (hstream : stream d = start :: ts ++ [.blockEnd]) : Readable d := by
  intro s i m tok hkeys hindent hcolumn hm htok hplace hrest
  obtain ⟨hallowed, hcol⟩ := hplace hd
  rw [hblock] at hrest
  obtain ⟨c, hc, hcm, hreach⟩ := h hkeys hallowed (by omega) hcol (by omega) htok hrest
  rw [unindent_within _ hkeys (by omega) (by omega)] at hreach
  exact ⟨c, hc, hcm, hstream ▸ hreach⟩

theorem readableLines_items {d : Data} {ds : List Data} (hd : Readable d)
    (hds : ds ≠ [] → ReadableLines (blockItems ds) .blockSequenceStart (itemStream ds)) :
    ReadableLines (blockItems (d :: ds)) .blockSequenceStart (itemStream (d :: ds)) := by
  intro s i m tok hkeys hallowed hi hcolumn hm htok hrest
  obtain ⟨k, following, hfollowing, hstarts, hk, hnil, hcons⟩ :=
    exists_following (blockItems_cases ds) hm htok
  rw [indentBy_blockItems, List.cons_append, List.cons_append, List.append_assoc,
    hfollowing] at hrest
  obtain ⟨hindent, _⟩ := within_cases .blockSequenceStart hkeys hi hcolumn
  obtain ⟨v, hv, hvrest, hvcolumn, hvallowed, hbehind⟩ :=
    exists_reaches_entry hkeys hallowed hi hcolumn hrest
      (startsToken_indentBy (startsToken_block d).1 (startsToken_block d).2 _ _)
  have hitem : Leads s (s.within .blockSequenceStart) ([.blockEntry] ++ stream d) k following :=
    hbehind.leads hv (hd hbehind.keys (hbehind.indent.trans hindent) (by omega) hk hstarts
      (fun _ => ⟨hvallowed, hvcolumn⟩) hvrest)
  rw [itemStream_cons]
  cases ds with
  | nil =>
    obtain ⟨rfl, rfl⟩ := hnil rfl
    simpa [itemStream] using hitem
  | cons e ds =>
    obtain ⟨rfl, rfl⟩ := hcons (startsToken_blockItems e ds).2
    refine hitem.trans (by omega) fun w hwkeys hwallowed hwindent hwcolumn hwrest => ?_
    have hgo := hds (List.cons_ne_nil e ds) hwkeys hwallowed (by omega) hwcolumn hm htok hwrest
    rwa [within_of_le (by omega)] at hgo

/-- What is read of a key with its value. -/
theorem leads_entry {key : Text} {d : Data} (hd : Readable d)
    (hitems : ∀ x xs, d = .list (x :: xs) →
      ReadableLines (blockItems (x :: xs)) .blockSequenceStart (itemStream (x :: xs)))
    {s : Scanner} {i k : Nat} {following : Text} (hkeys : s.keys = [none])
    (hallowed : s.keyAllowed = true) (hi : s.indent ≤ i) (hcolumn : s.cursor.column = i)
    (hk : k ≤ i) (hstarts : startsToken following)
    (hrest : s.cursor.rest =
      indentBy i false (entry key d (block d)) ++ (List.replicate k ' ' ++ following)) :
    Leads s (s.within .blockMappingStart) ([.key, scalarToken key, .value] ++ valueStream key d)
      k following := by
  obtain ⟨hindent, _⟩ := within_cases .blockMappingStart hkeys hi hcolumn
  have hblock := fun n after =>
    startsToken_indentBy (startsToken_block d).1 (startsToken_block d).2 n after
  cases hkey : isSimpleKey key with
  | false =>
    rw [indentBy_entry_marked hkey] at hrest
    simp only [List.cons_append, List.append_assoc] at hrest
    obtain ⟨v, hv, hvrest, hvcolumn, hvallowed, hbehind⟩ :=
      exists_reaches_marked hkeys hallowed hi hcolumn hrest (hblock _ _)
    have hvalue : valueStream key d = stream d := by
      unfold valueStream
      split
      · rw [if_neg (by simp [hkey])]
      · rfl
    rw [hvalue]
    exact hbehind.leads hv (hd hbehind.keys (hbehind.indent.trans hindent) (by omega) hk hstarts
      (fun _ => ⟨hvallowed, hvcolumn⟩) hvrest)
  | true =>
    cases hflat : isFlat d with
    | true =>
      rw [indentBy_entry_flat hkey hflat] at hrest
      simp only [List.cons_append, List.append_assoc] at hrest
      obtain ⟨v, hv, hvrest, hvcolumn, hbehind⟩ :=
        exists_reaches_value hkeys hallowed hi hcolumn hkey hrest (hblock _ _)
      rw [valueStream_of_not_list (by rintro x xs rfl; cases hflat)]
      exact hbehind.leads hv (hd hbehind.keys (hbehind.indent.trans hindent) hvcolumn hk hstarts
        (fun h => absurd (hflat.symm.trans h) (by decide)) hvrest)
    | false =>
      obtain ⟨x, xs, rfl⟩ | ⟨x, xs, rfl⟩ := exists_of_not_isFlat hflat
      · rw [indentBy_entry_items hkey] at hrest
        simp only [List.cons_append, List.append_assoc] at hrest
        obtain ⟨v, hv, hvrest, hvcolumn, hvallowed, hbehind⟩ :=
          exists_reaches_lines hkeys hallowed hi hcolumn hkey hrest
            (startsToken_indentBy (startsToken_blockItems x xs).1 (startsToken_blockItems x xs).2 _ _)
            (Nat.le_refl i)
        have hvindent : v.indent = i := hbehind.indent.trans hindent
        have hgo := hitems x xs rfl hbehind.keys hvallowed (by omega) hvcolumn hk hstarts hvrest
        rw [within_of_le (by omega)] at hgo
        rw [valueStream, if_pos hkey]
        exact hbehind.leads hv hgo
      · rw [indentBy_entry_fields hkey] at hrest
        simp only [List.cons_append, List.append_assoc] at hrest
        obtain ⟨v, hv, hvrest, hvcolumn, hvallowed, hbehind⟩ :=
          exists_reaches_lines hkeys hallowed hi hcolumn hkey hrest (hblock _ _) (by omega)
        rw [valueStream_of_not_list (fun _ _ h => by cases h)]
        exact hbehind.leads hv (hd hbehind.keys (hbehind.indent.trans hindent) (by omega) hk hstarts
          (fun _ => ⟨hvallowed, hvcolumn⟩) hvrest)

theorem readableLines_fields {key : Text} {d : Data} {fields : List (Text × Data)} (hd : Readable d)
    (hitems : ∀ x xs, d = .list (x :: xs) →
      ReadableLines (blockItems (x :: xs)) .blockSequenceStart (itemStream (x :: xs)))
    (hfields : fields ≠ [] →
      ReadableLines (blockFields fields) .blockMappingStart (fieldStream fields)) :
    ReadableLines (blockFields ((key, d) :: fields)) .blockMappingStart
      (fieldStream ((key, d) :: fields)) := by
  intro s i m tok hkeys hallowed hi hcolumn hm htok hrest
  obtain ⟨k, following, hfollowing, hstarts, hk, hnil, hcons⟩ :=
    exists_following (blockFields_cases fields) hm htok
  rw [indentBy_blockFields, List.append_assoc, hfollowing] at hrest
  obtain ⟨hindent, _⟩ := within_cases .blockMappingStart hkeys hi hcolumn
  have hentry := leads_entry hd hitems hkeys hallowed hi hcolumn hk hstarts hrest
  rw [fieldStream_cons]
  cases fields with
  | nil =>
    obtain ⟨rfl, rfl⟩ := hnil rfl
    simpa [fieldStream] using hentry
  | cons field fields =>
    obtain ⟨rfl, rfl⟩ := hcons (startsToken_blockFields field fields).2
    refine hentry.trans (by omega) fun w hwkeys hwallowed hwindent hwcolumn hwrest => ?_
    have hgo := hfields (List.cons_ne_nil field fields) hwkeys hwallowed (by omega) hwcolumn hm htok
      hwrest
    rwa [within_of_le (by omega)] at hgo

theorem readable_of_isFlat {d : Data} (h : isFlat d = true) : Readable d :=
  fun _ _ _ _ hkeys hindent hcolumn hm htok _ hrest =>
    passes_flat hkeys hindent hcolumn hm htok h hrest

mutual

/-- Every value is read, and a list also where its entries are not indented. -/
theorem readable : ∀ d : Data, Readable d ∧ ∀ x xs, d = .list (x :: xs) →
    ReadableLines (blockItems (x :: xs)) .blockSequenceStart (itemStream (x :: xs))
  | .null | .bool _ | .int _ | .float _ | .text _ | .list [] | .object [] =>
    ⟨readable_of_isFlat rfl, fun _ _ h => by cases h⟩
  | .list (d :: ds) => by
    have h := readable_items (d :: ds) (List.cons_ne_nil d ds)
    refine ⟨ReadableLines.readable h rfl (block_items d ds) (stream_items d ds), ?_⟩
    rintro _ _ ⟨⟩
    exact h
  | .object (field :: fields) =>
    ⟨ReadableLines.readable (readable_fields (field :: fields) (List.cons_ne_nil field fields)) rfl
      (block_fields field fields) (stream_fields field fields), fun _ _ h => by cases h⟩

theorem readable_items : ∀ ds : List Data, ds ≠ [] →
    ReadableLines (blockItems ds) .blockSequenceStart (itemStream ds)
  | [], h => absurd rfl h
  | d :: ds, _ => readableLines_items (readable d).1 (readable_items ds)

theorem readable_fields : ∀ fields : List (Text × Data), fields ≠ [] →
    ReadableLines (blockFields fields) .blockMappingStart (fieldStream fields)
  | [], h => absurd rfl h
  | (_, d) :: fields, _ => readableLines_fields (readable d).1 (readable d).2 (readable_fields fields)

end

end Scaffold.Yaml.Scanner

namespace Scaffold.Yaml

/-! ## The whole text -/

namespace Printer

theorem indentBy_allowed {t : Text} (h : t.all isAllowed = true) (n : Nat) (atStart : Bool) :
    (indentBy n atStart t).all isAllowed = true := by
  have hblanks : (List.replicate n ' ').all isAllowed = true :=
    List.all_eq_true.mpr fun c hc => List.eq_of_mem_replicate hc ▸ rfl
  induction t generalizing atStart with
  | nil => rfl
  | cons c t ih =>
    simp only [List.all_cons, Bool.and_eq_true] at h
    rw [indentBy]
    split
    · rw [List.all_append, List.all_cons, hblanks, h.1, ih h.2]
      rfl
    · rw [List.all_cons, h.1, ih h.2]
      rfl

theorem endLine_allowed {t : Text} (h : t.all isAllowed = true) :
    (endLine t).all isAllowed = true := by
  rw [endLine]
  split
  · exact h
  · rw [List.all_append, h]
    rfl

theorem isBareWord_allowed {t : Text} (h : IsBareWord t) : t.all isAllowed = true :=
  List.all_eq_true.mpr fun c hc => isAllowed_of_isPrintable
    (isBareChar_cases (List.all_eq_true.mp h.bare c hc)).1

theorem entry_allowed {d : Data} (key : Text) (h : (block d).all isAllowed = true) :
    (entry key d (block d)).all isAllowed = true := by
  have hmarks : isAllowed ':' = true ∧ isAllowed ' ' = true ∧ isAllowed '\n' = true ∧
      isAllowed '?' = true := by decide
  have hkey := scalar_allowed key
  have hnested := indentBy_allowed h
  cases hsimple : isSimpleKey key with
  | false =>
    have hfirst := indentBy_allowed (endLine_allowed hkey) 2 false
    rw [entry_marked _ hsimple]
    simp [block, hmarks, hfirst, hnested]
  | true =>
    cases hflat : isFlat d with
    | true =>
      rw [entry_flat _ hsimple hflat]
      simp [hmarks, hkey, hnested]
    | false =>
      obtain ⟨x, xs, rfl⟩ | ⟨x, xs, rfl⟩ := exists_of_not_isFlat hflat
      · rw [entry_items _ hsimple]
        simp [hmarks, hkey, h]
      · rw [entry_fields _ hsimple]
        simp [hmarks, hkey, hnested]

mutual

theorem block_allowed : ∀ d : Data, (block d).all isAllowed = true
  | .null | .bool true | .bool false | .list [] | .object [] => by decide
  | .int n => by
    rw [block, List.all_append, isBareWord_allowed (isBareWord_intText n)]
    rfl
  | .float x => by
    rw [block, List.all_append, isBareWord_allowed (isBareWord_floatText x)]
    rfl
  | .text t => by
    rw [block]
    exact endLine_allowed (scalar_allowed t)
  | .list (d :: ds) => by
    rw [block_items]
    exact blockItems_allowed (d :: ds)
  | .object (field :: fields) => by
    rw [block_fields]
    exact blockFields_allowed (field :: fields)

theorem blockItems_allowed : ∀ ds : List Data, (blockItems ds).all isAllowed = true
  | [] => rfl
  | d :: ds => by
    rw [blockItems_cons, List.all_cons, List.all_cons, List.all_append,
      indentBy_allowed (block_allowed d), blockItems_allowed ds]
    rfl

theorem blockFields_allowed : ∀ fields : List (Text × Data),
    (blockFields fields).all isAllowed = true
  | [] => rfl
  | (key, d) :: fields => by
    rw [blockFields_cons, List.all_append, entry_allowed key (block_allowed d),
      blockFields_allowed fields]
    rfl

end

theorem indentBy_zero (atStart : Bool) (t : Text) : indentBy 0 atStart t = t := by
  induction t generalizing atStart with
  | nil => rfl
  | cons c t ih =>
    rw [indentBy]
    split <;> simp [ih]

end Printer

open Printer Scanner

/-- The tokens of the written options. -/
theorem tokens?_block (field : Text × Data) (fields : List (Text × Data)) :
    tokens? (block (.object (field :: fields))) = some (stream (.object (field :: fields))) := by
  obtain ⟨t, ht⟩ : ∃ t, t = block (.object (field :: fields)) := ⟨_, rfl⟩
  have hstarts : startsToken t ∧ t ≠ [] := ht ▸ startsToken_block _
  have hindent : (Scanner.start t).indent < (Scanner.start t).cursor.column := by
    change (-1 : Int) < 0
    decide
  have hready : (Scanner.start t).ready? = some (Scanner.start t) :=
    ready?_word (n := 0) rfl hstarts.1 (fun k hk => by simp [Scanner.start] at hk)
      (Int.le_of_lt hindent)
  have hrest : (Scanner.start t).cursor.rest =
      indentBy 0 false (blockFields (field :: fields)) ++ (List.replicate 0 ' ' ++ []) := by
    simp [Scanner.start, Cursor.start, indentBy_zero, ht, block_fields]
  obtain ⟨c, hc, hcolumn, hreach⟩ := readable_fields (field :: fields) (List.cons_ne_nil _ _)
    (s := Scanner.start t) (i := 0) (m := 0) rfl rfl (Int.le_of_lt hindent) rfl
      (Nat.le_refl 0) startsToken_nil hrest
  have hwithin : ((Scanner.start t).within .blockMappingStart).indent = (0 : Nat) :=
    (within_cases _ (i := 0) rfl (Int.le_of_lt hindent) rfl).1
  rw [unindent_of_le (show (((Scanner.start t).within .blockMappingStart).next c
    (fieldStream (field :: fields))).indent ≤ (0 : Nat) from Int.le_of_eq hwithin)] at hreach
  have hend : c.peek = none := c.peek_eq_none hc
  have hrun := run?_of_reaches hready hreach hend (t.length + 2)
    (by simp [Scanner.start, Cursor.start])
  have hclosed := unindent_within .blockMappingStart rfl hindent hindent c
    (fieldStream (field :: fields))
  rw [show (Scanner.start t).indent = -1 from rfl, ← stream_fields] at hclosed
  rw [tokens?, ← ht, if_pos (ht ▸ block_allowed _), hrun, finish?, hclosed]
  rfl

end Scaffold.Yaml
