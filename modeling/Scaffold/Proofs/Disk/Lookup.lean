import Scaffold.Disk

/-!
What lookups find before and after a disk gets new entries. Main statements: making directories
adds directories and changes nothing else (`makeDirectories_grown`), a path that led to an entry
leads to it still (`Grown.locate_taken`), what is written by a path is found by it (`locate_put`),
and in a tree a path without `..` leads to no file that it did not lead to before
(`Grown.locate_file`).
-/

namespace Scaffold

namespace Disk

variable {d d' d'' : Disk} {place other : Place} {entry e : Entry} {name : Text}
  {names : List Text} {spot : Spot} {path : Path} {c : Content}

private theorem find?_putIn (place other : Place) (e : Entry) (entries : List (Place × Entry)) :
    find? other (putIn place e entries) =
      if place = other then some e else find? other entries := by
  induction entries with
  | nil => rfl
  | cons first entries ih =>
    obtain ⟨p, x⟩ := first
    rw [putIn]
    by_cases hp : p = place
    · rw [if_pos hp, find?, find?, hp]
      split <;> rfl
    · rw [if_neg hp, find?, find?, ih]
      by_cases ho : p = other
      · rw [if_pos ho, if_neg fun h => hp (ho.trans h.symm), if_pos ho]
      · rw [if_neg ho, if_neg ho]

theorem entry?_nil (d : Disk) : d.entry? [] = some .directory := if_pos rfl

theorem ne_nil_of_entry? (h : d.entry? place ≠ some .directory) : place ≠ [] := by
  rintro rfl
  exact h d.entry?_nil

theorem entry?_put_self (d : Disk) (e : Entry) (h : place ≠ []) :
    entry? (d.put place e) place = some e := by
  unfold entry? put
  rw [if_neg h, find?_putIn, if_pos rfl]

theorem entry?_put_of_ne (d : Disk) (e : Entry) (h : place ≠ other) :
    entry? (d.put place e) other = d.entry? other := by
  unfold entry? put
  rw [find?_putIn, if_neg h]

/-- A component that is the name of an entry. -/
def Names (name : Text) : Prop :=
  name ≠ [] ∧ name ≠ ['.'] ∧ name ≠ ['.', '.'] ∧ Text.bytes name ≤ 255

/-- All that one component of a path can do. -/
theorem walk_cons (h : d.walk place entry (name :: names) = .ok spot) :
    entry = .directory ∧
      ((name = [] ∨ name = ['.']) ∧ d.walk place .directory names = .ok spot ∨
        name = ['.', '.'] ∧ d.walk place.dropLast .directory names = .ok spot ∨
        Names name ∧ (∃ e, d.entry? (place ++ [name]) = some e ∧
          d.walk (place ++ [name]) e names = .ok spot) ∨
        Names name ∧ d.entry? (place ++ [name]) = none ∧
          spot = .free (place ++ [name]) !names.isEmpty) := by
  rw [walk] at h
  split at h
  · cases h
  · next hentry =>
    have hdir : entry = .directory := Decidable.not_not.mp hentry
    subst hdir
    refine ⟨rfl, ?_⟩
    split at h
    · next hdot => exact .inl ⟨hdot, h⟩
    · next hdot =>
      split at h
      · next hup => exact .inr (.inl ⟨hup, h⟩)
      · next hup =>
        split at h
        · cases h
        · next hlong =>
          have hname : Names name :=
            ⟨fun hn => hdot (.inl hn), fun hn => hdot (.inr hn), hup, by omega⟩
          split at h
          · next e he => exact .inr (.inr (.inl ⟨hname, e, he, h⟩))
          · next hnone =>
            split at h
            · exact .inr (.inr (.inr ⟨hname, hnone, (Except.ok.inj h).symm⟩))
            · cases h

theorem walk_dot (h : name = [] ∨ name = ['.']) :
    d.walk place .directory (name :: names) = d.walk place .directory names := by
  rw [walk, if_neg (fun hne => hne rfl), if_pos h]

theorem walk_up :
    d.walk place .directory (['.', '.'] :: names) = d.walk place.dropLast .directory names := by
  rw [walk, if_neg (fun hne => hne rfl), if_neg (by decide), if_pos rfl]

theorem walk_name (hname : Names name) (h : d.entry? (place ++ [name]) = some e) :
    d.walk place .directory (name :: names) = d.walk (place ++ [name]) e names := by
  obtain ⟨hnil, hdot, hup, hshort⟩ := hname
  have hnot : ¬ (name = [] ∨ name = ['.']) := by
    rintro (h | h)
    · exact hnil h
    · exact hdot h
  rw [walk, if_neg (fun hne => hne rfl), if_neg hnot, if_neg hup, if_neg (by omega), h]

/-- The file that a walk ends at is where the walk says it is. -/
theorem walk_file (hentry : ∀ c, entry = .file c → d.entry? place = some (.file c))
    (h : d.walk place entry names = .ok (.taken other (.file c))) :
    d.entry? other = some (.file c) := by
  induction names generalizing place entry with
  | nil =>
    obtain ⟨rfl, rfl⟩ := Spot.taken.inj (Except.ok.inj h)
    exact hentry c rfl
  | cons name names ih =>
    obtain ⟨rfl, ⟨_, h⟩ | ⟨_, h⟩ | ⟨_, e, he, h⟩ | ⟨_, _, h⟩⟩ := walk_cons h
    · exact ih (fun c hfile => by cases hfile) h
    · exact ih (fun c hfile => by cases hfile) h
    · exact ih (fun c hfile => hfile ▸ he) h
    · cases h

theorem walk_free {slash : Bool} (h : d.walk place entry names = .ok (.free other slash)) :
    d.entry? other = none := by
  induction names generalizing place entry with
  | nil => cases h
  | cons name names ih =>
    obtain ⟨rfl, ⟨_, h⟩ | ⟨_, h⟩ | ⟨_, e, he, h⟩ | ⟨_, hnone, h⟩⟩ := walk_cons h
    · exact ih h
    · exact ih h
    · exact ih h
    · obtain ⟨rfl, _⟩ := Spot.free.inj h
      exact hnone

/-- Where the walk along a path begins. -/
def startOf (d : Disk) (path : Path) : Place := if path.isAbsolute then [] else d.workingPlace

/-- A path that is walked along at all. -/
def Usable (path : Path) : Prop := '\x00' ∉ path ∧ path ≠ [] ∧ Text.bytes path < 4096

theorem locate_eq (h : Usable path) :
    d.locate path = d.walk (d.startOf path) .directory (Text.split '/' path) := by
  obtain ⟨hnul, hnil, hshort⟩ := h
  rw [locate, if_neg hnul, if_neg hnil, if_neg (by omega)]
  rfl

theorem usable_of_locate (h : d.locate path = .ok spot) : Usable path := by
  unfold locate at h
  split at h
  · cases h
  · next hnul =>
    split at h
    · cases h
    · next hnil =>
      split at h
      · cases h
      · next hshort => exact ⟨hnul, hnil, by omega⟩

theorem locate_ok_iff : d.locate path = .ok spot ↔
    Usable path ∧ d.walk (d.startOf path) .directory (Text.split '/' path) = .ok spot := by
  constructor
  · intro h
    have husable := usable_of_locate h
    rw [locate_eq husable] at h
    exact ⟨husable, h⟩
  · rintro ⟨husable, h⟩
    rw [locate_eq husable, h]

theorem locate_file (h : d.locate path = .ok (.taken place (.file c))) :
    d.entry? place = some (.file c) :=
  walk_file (fun c hfile => by cases hfile) (locate_ok_iff.mp h).2

theorem locate_free {slash : Bool} (h : d.locate path = .ok (.free place slash)) :
    d.entry? place = none :=
  walk_free (locate_ok_iff.mp h).2

theorem entryAt_ok (h : d.entryAt path = .ok e) :
    ∃ place, d.locate path = .ok (.taken place e) := by
  unfold entryAt at h
  split at h
  · next place e hlocate =>
    obtain rfl := Except.ok.inj h
    exact ⟨place, hlocate⟩
  · cases h
  · cases h

theorem read_ok {t : Text} (h : d.read path = .ok t) :
    ∃ place, d.locate path = .ok (.taken place (.file (.text t))) := by
  unfold read at h
  split at h
  · next hentry =>
    obtain rfl := Except.ok.inj h
    exact entryAt_ok hentry
  · cases h
  · cases h
  · cases h

theorem read_of_locate {t : Text} (h : d.locate path = .ok (.taken place (.file (.text t)))) :
    d.read path = .ok t := by
  simp only [read, entryAt, h]

theorem read_missing : d.read path = .error .missing ↔ d.exists? path = .ok false := by
  unfold read exists?
  cases d.entryAt path with
  | error f => cases f <;> simp
  | ok e =>
    cases e with
    | directory => simp
    | file c => cases c <;> simp

/-- The second disk has some more directories and is otherwise as the first. -/
structure Grown (d d' : Disk) : Prop where
  workingPlace : d'.workingPlace = d.workingPlace
  kept : ∀ place e, d.entry? place = some e → d'.entry? place = some e
  noFile : ∀ place c, d'.entry? place = some (.file c) → d.entry? place = some (.file c)

theorem Grown.refl (d : Disk) : Grown d d := ⟨rfl, fun _ _ h => h, fun _ _ h => h⟩

theorem Grown.trans (h : Grown d d') (h' : Grown d' d'') : Grown d d'' where
  workingPlace := h'.workingPlace.trans h.workingPlace
  kept place e he := h'.kept place e (h.kept place e he)
  noFile place c hc := h.noFile place c (h'.noFile place c hc)

theorem put_directory_grown (h : d.entry? place = none) : Grown d (d.put place .directory) := by
  have hne : place ≠ [] := ne_nil_of_entry? (by rw [h]; exact nofun)
  constructor
  · rfl
  · intro other e he
    have hother : place ≠ other := by
      rintro rfl
      rw [h] at he
      cases he
    rw [entry?_put_of_ne d _ hother, he]
  · intro other c hc
    by_cases hother : place = other
    · subst hother
      rw [entry?_put_self d _ hne] at hc
      cases hc
    · rwa [entry?_put_of_ne d _ hother] at hc

theorem makeDirectory_ok (h : d.makeDirectory path = .ok d') :
    ∃ place slash, d.locate path = .ok (.free place slash) ∧ d' = d.put place .directory := by
  unfold makeDirectory at h
  split at h
  · cases h
  · next place slash hfree => exact ⟨place, slash, hfree, (Except.ok.inj h).symm⟩
  · cases h

theorem write_ok {t : Text} (h : d.write path t = .ok d') :
    ∃ place, d' = d.put place (.file (.text t)) ∧
      (d.locate path = .ok (.free place false) ∨
        ∃ c, d.locate path = .ok (.taken place (.file c))) := by
  unfold write at h
  split at h
  · next place c hlocate => exact ⟨place, (Except.ok.inj h).symm, .inr ⟨c, hlocate⟩⟩
  · cases h
  · cases h
  · next place hlocate => exact ⟨place, (Except.ok.inj h).symm, .inl hlocate⟩
  · cases h

/-- Along a way that ends at a name for a file, a file put there is what it ends at. -/
private theorem walk_put {content : Content} (hother : d.entry? other ≠ some .directory)
    (h : d.walk place .directory names = .ok spot)
    (hspot : spot = .free other false ∨ ∃ c, spot = .taken other (.file c)) :
    walk (d.put other (.file content)) place .directory names =
      .ok (.taken other (.file content)) := by
  have hne : other ≠ [] := ne_nil_of_entry? hother
  have hput : entry? (d.put other (.file content)) other = some (.file content) :=
    d.entry?_put_self _ hne
  induction names generalizing place with
  | nil =>
    obtain rfl := Except.ok.inj h
    rcases hspot with hspot | ⟨c, hspot⟩
    · cases hspot
    · cases hspot
  | cons name names ih =>
    obtain ⟨_, ⟨hdot, h⟩ | ⟨rfl, h⟩ | ⟨hname, e, he, h⟩ | ⟨hname, _, rfl⟩⟩ := walk_cons h
    · rw [walk_dot hdot]
      exact ih h
    · rw [walk_up]
      exact ih h
    · by_cases hsame : place ++ [name] = other
      · subst hsame
        rw [walk_name hname hput]
        cases names with
        | nil => rfl
        | cons next names =>
          obtain ⟨rfl, _⟩ := walk_cons h
          exact absurd he hother
      · have he' : entry? (d.put other (.file content)) (place ++ [name]) = some e := by
          rw [d.entry?_put_of_ne _ (Ne.symm hsame), he]
        rw [walk_name hname he']
        cases names with
        | nil =>
          obtain rfl := Except.ok.inj h
          rcases hspot with hspot | ⟨c, hspot⟩
          · cases hspot
          · exact absurd (Spot.taken.inj hspot).1 hsame
        | cons next names =>
          obtain ⟨rfl, _⟩ := walk_cons h
          exact ih h
    · rcases hspot with hspot | ⟨c, hspot⟩
      · obtain ⟨rfl, hlast⟩ := Spot.free.inj hspot
        obtain rfl : names = [] := by simpa using hlast
        rw [walk_name hname hput]
        rfl
      · cases hspot

/-- Where a file can be written there is no directory. -/
theorem not_directory (h : d.locate path = .ok (.free place false) ∨
    ∃ c, d.locate path = .ok (.taken place (.file c))) : d.entry? place ≠ some .directory := by
  rcases h with hfree | ⟨c, htaken⟩
  · rw [locate_free hfree]
    exact nofun
  · rw [locate_file htaken]
    exact nofun

/-- What is written where a path leads is found by that path. -/
theorem locate_put {t : Text} (h : d.locate path = .ok (.free place false) ∨
      ∃ c, d.locate path = .ok (.taken place (.file c))) :
    locate (d.put place (.file (.text t))) path = .ok (.taken place (.file (.text t))) := by
  have hplace := not_directory h
  rcases h with hfree | ⟨c, htaken⟩
  · obtain ⟨husable, hwalk⟩ := locate_ok_iff.mp hfree
    exact locate_ok_iff.mpr ⟨husable, walk_put hplace hwalk (.inl rfl)⟩
  · obtain ⟨husable, hwalk⟩ := locate_ok_iff.mp htaken
    exact locate_ok_iff.mpr ⟨husable, walk_put hplace hwalk (.inr ⟨c, rfl⟩)⟩

theorem settle_fst (d : Disk) (path : Path) (f : Fault) : (settle d path f).1 = d := by
  unfold settle
  split <;> rfl

/-- What every making of one directory keeps, the making of several keeps. -/
theorem makeChain_induction {R : Disk → Disk → Prop} (hrefl : ∀ d, R d d)
    (htrans : ∀ {d d' d''}, R d d' → R d' d'' → R d d'')
    (hmake : ∀ {d d' path}, makeDirectory d path = .ok d' → R d d') (d : Disk)
    (chain : List Path) : R d (d.makeChain chain).1 := by
  induction chain with
  | nil => exact hrefl d
  | cons path ancestors ih =>
    rw [makeChain]
    split
    · exact hrefl d
    · split
      · next d' hd => exact hmake hd
      · split
        · next d' f hd => exact (congrArg (R d) (congrArg Prod.fst hd)).mp ih
        · next d' hd =>
          have hancestors : R d d' := (congrArg (R d) (congrArg Prod.fst hd)).mp ih
          split
          · next d'' hd' => exact htrans hancestors (hmake hd')
          · rw [settle_fst]
            exact hancestors
      · rw [settle_fst]
        exact hrefl d

theorem makeDirectories_grown (d : Disk) (path : Path) : Grown d (d.makeDirectories path).1 := by
  refine makeChain_induction Grown.refl Grown.trans (fun h => ?_) d path.ancestors
  obtain ⟨place, slash, hfree, rfl⟩ := makeDirectory_ok h
  exact put_directory_grown (locate_free hfree)

theorem Grown.walk_taken (hg : Grown d d')
    (h : d.walk place entry names = .ok (.taken other e)) :
    d'.walk place entry names = .ok (.taken other e) := by
  induction names generalizing place entry with
  | nil => exact h
  | cons name names ih =>
    obtain ⟨rfl, ⟨hdot, h⟩ | ⟨rfl, h⟩ | ⟨hname, e, he, h⟩ | ⟨_, _, h⟩⟩ := walk_cons h
    · rw [walk_dot hdot]
      exact ih h
    · rw [walk_up]
      exact ih h
    · rw [walk_name hname (hg.kept _ _ he)]
      exact ih h
    · cases h

theorem Grown.locate_taken (hg : Grown d d') (h : d.locate path = .ok (.taken place e)) :
    d'.locate path = .ok (.taken place e) := by
  obtain ⟨husable, hwalk⟩ := locate_ok_iff.mp h
  refine locate_ok_iff.mpr ⟨husable, ?_⟩
  rw [startOf, hg.workingPlace]
  exact hg.walk_taken hwalk

/-- The entries are a tree: each lies in a directory, and so does the working directory. -/
structure IsTree (d : Disk) : Prop where
  start : d.entry? d.workingPlace = some .directory
  parents : ∀ place name, d.entry? (place ++ [name]) ≠ none → d.entry? place = some .directory

theorem IsTree.parent (h : d.IsTree) (hplace : d.entry? place ≠ none) :
    place = [] ∨ d.entry? place.dropLast = some .directory := by
  rcases List.eq_nil_or_concat place with rfl | ⟨q, name, rfl⟩
  · exact .inl rfl
  · rw [List.concat_eq_append] at hplace ⊢
    rw [List.dropLast_concat]
    exact .inr (h.parents q name hplace)

/-- On the way to an entry there are entries. -/
theorem IsTree.entry?_append (h : d.IsTree) (rest : List Text)
    (hplace : d.entry? (place ++ rest) ≠ none) : d.entry? place ≠ none := by
  induction rest generalizing place with
  | nil => rwa [List.append_nil] at hplace
  | cons name rest ih =>
    rw [← List.singleton_append, ← List.append_assoc] at hplace
    rw [h.parents place name (ih hplace)]
    exact nofun

private theorem walk_begins (hup : ['.', '.'] ∉ names)
    (h : d.walk place entry names = .ok (.taken other e)) : place <+: other := by
  induction names generalizing place entry with
  | nil =>
    obtain ⟨rfl, _⟩ := Spot.taken.inj (Except.ok.inj h)
    exact List.prefix_rfl
  | cons name names ih =>
    have hup' : ['.', '.'] ∉ names := fun hmem => hup (List.mem_cons_of_mem _ hmem)
    obtain ⟨rfl, ⟨_, h⟩ | ⟨rfl, _⟩ | ⟨_, _, _, h⟩ | ⟨_, _, h⟩⟩ := walk_cons h
    · exact ih hup' h
    · exact absurd (List.mem_cons_self ..) hup
    · exact (List.prefix_append place [name]).trans (ih hup' h)
    · cases h

private theorem Grown.walk_file (hg : Grown d d') (htree : d.IsTree) (hup : ['.', '.'] ∉ names)
    (hother : d.entry? other = some (.file c))
    (h : d'.walk place entry names = .ok (.taken other (.file c))) :
    d.walk place entry names = .ok (.taken other (.file c)) := by
  induction names generalizing place entry with
  | nil => exact h
  | cons name names ih =>
    have hup' : ['.', '.'] ∉ names := fun hmem => hup (List.mem_cons_of_mem _ hmem)
    obtain ⟨rfl, ⟨hdot, h⟩ | ⟨rfl, _⟩ | ⟨hname, e, he, h⟩ | ⟨_, _, h⟩⟩ := walk_cons h
    · rw [walk_dot hdot]
      exact ih hup' h
    · exact absurd (List.mem_cons_self ..) hup
    · -- The file was there before, and so was everything on the way to it.
      obtain ⟨rest, rfl⟩ := walk_begins hup' h
      have hthere : d.entry? (place ++ [name]) ≠ none :=
        htree.entry?_append rest (by rw [hother]; exact nofun)
      obtain ⟨e', he'⟩ := Option.ne_none_iff_exists'.mp hthere
      obtain rfl : e' = e := Option.some.inj ((hg.kept _ _ he').symm.trans he)
      rw [walk_name hname he']
      exact ih hup' h
    · cases h

theorem Grown.locate_file (hg : Grown d d') (htree : d.IsTree)
    (hup : ['.', '.'] ∉ Text.split '/' path)
    (h : d'.locate path = .ok (.taken place (.file c))) :
    d.locate path = .ok (.taken place (.file c)) := by
  have hother := hg.noFile _ _ (Disk.locate_file h)
  obtain ⟨husable, hwalk⟩ := locate_ok_iff.mp h
  rw [startOf, hg.workingPlace] at hwalk
  exact locate_ok_iff.mpr ⟨husable, hg.walk_file htree hup hother hwalk⟩

private theorem IsTree.walk_free (htree : d.IsTree) {slash : Bool}
    (hentry : d.entry? place = some entry)
    (h : d.walk place entry names = .ok (.free other slash)) :
    ∃ q name, other = q ++ [name] ∧ d.entry? q = some .directory := by
  induction names generalizing place entry with
  | nil => cases h
  | cons name names ih =>
    obtain ⟨rfl, ⟨_, h⟩ | ⟨rfl, h⟩ | ⟨_, e, he, h⟩ | ⟨_, _, h⟩⟩ := walk_cons h
    · exact ih hentry h
    · rcases htree.parent (by rw [hentry]; exact nofun) with rfl | hparent
      · exact ih hentry h
      · exact ih hparent h
    · exact ih he h
    · obtain ⟨rfl, _⟩ := Spot.free.inj h
      exact ⟨place, name, rfl, hentry⟩

theorem IsTree.locate_free (htree : d.IsTree) {slash : Bool}
    (h : d.locate path = .ok (.free place slash)) :
    ∃ q name, place = q ++ [name] ∧ d.entry? q = some .directory := by
  refine htree.walk_free ?_ (locate_ok_iff.mp h).2
  rw [startOf]
  split
  · exact d.entry?_nil
  · exact htree.start

/-- A tree stays one if something comes into a directory, unless it replaces a directory. -/
theorem IsTree.put (htree : d.IsTree) (e : Entry) (hplace : d.entry? place ≠ some .directory)
    (hparent : ∀ q name, place = q ++ [name] → d.entry? q = some .directory) :
    (d.put place e).IsTree := by
  have hkept {q : Place} (h : d.entry? q = some .directory) :
      entry? (d.put place e) q = some .directory := by
    have hne : place ≠ q := by
      rintro rfl
      exact hplace h
    rw [entry?_put_of_ne d e hne, h]
  constructor
  · exact hkept htree.start
  · intro q name h
    by_cases hq : place = q ++ [name]
    · exact hkept (hparent q name hq)
    · rw [entry?_put_of_ne d e hq] at h
      exact hkept (htree.parents q name h)

theorem IsTree.put_free (htree : d.IsTree) (e : Entry) {slash : Bool}
    (h : d.locate path = .ok (.free place slash)) : (d.put place e).IsTree := by
  refine htree.put e (by rw [Disk.locate_free h]; exact nofun) fun q name hq => ?_
  obtain ⟨q', name', hplace, hparent⟩ := htree.locate_free h
  obtain ⟨rfl, _⟩ := List.append_inj' (hq.symm.trans hplace) rfl
  exact hparent

theorem IsTree.put_file (htree : d.IsTree) (e : Entry) (h : d.entry? place = some (.file c)) :
    (d.put place e).IsTree := by
  refine htree.put e (by rw [h]; exact nofun) fun q name hq => ?_
  exact htree.parents q name (by rw [← hq, h]; exact nofun)

theorem IsTree.makeDirectories (htree : d.IsTree) (path : Path) :
    (d.makeDirectories path).1.IsTree := by
  have hchain := makeChain_induction (R := fun d d' => d.IsTree → d'.IsTree) (fun _ h => h)
    (fun h h' htree => h' (h htree)) (fun h htree => by
      obtain ⟨place, slash, hfree, rfl⟩ := makeDirectory_ok h
      exact htree.put_free .directory hfree) d path.ancestors
  exact hchain htree

end Disk

end Scaffold
