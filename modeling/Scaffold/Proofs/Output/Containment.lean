import Scaffold.Proofs.Output.Delivery

/-!
Where the destination of a save path lies, once `.` and `..` are resolved by name alone. A save path
comes to so many steps up and then names down, and a path that goes up leaves the directory it
starts from unless it comes back by the same names. Main statements: the destination is what this
route leads to from the output directory (`resolve_destination`), on a disk too (`Wrote.place_eq`),
and so it is inside for some save paths only (`destination_inside_iff`).
-/

namespace Scaffold

namespace Path

/-- What one component of a path makes of a place, going by its name alone. -/
def enter (place : Place) (name : Text) : Place :=
  if name = [] ∨ name = ['.'] then place
  else if name = ['.', '.'] then place.dropLast
  else place ++ [name]

/-- The place that the text of a path tells; a relative path starts from a given one. -/
def resolve (start : Place) (path : Path) : Place :=
  (Text.split '/' path).foldl enter (if isAbsolute path then [] else start)

/-- A directory and all that is below it. -/
def Inside (start : Place) (dir path : Path) : Prop := resolve start dir <+: resolve start path

instance (start : Place) (dir path : Path) : Decidable (Inside start dir path) :=
  inferInstanceAs (Decidable (resolve start dir <+: resolve start path))

/-- A relative path as so many steps up and then names down. -/
structure Route where
  up : Nat
  down : List Text
  deriving DecidableEq, Repr

namespace Route

def extend (r : Route) (name : Text) : Route :=
  if name = [] ∨ name = ['.'] then r
  else if name = ['.', '.'] then
    if r.down = [] then ⟨r.up + 1, []⟩ else ⟨r.up, r.down.dropLast⟩
  else ⟨r.up, r.down ++ [name]⟩

/-- Steps up end at the root, which is its own parent. -/
def follow (r : Route) (place : Place) : Place := place.take (place.length - r.up) ++ r.down

theorem follow_extend (r : Route) (name : Text) (place : Place) :
    (r.extend name).follow place = enter (r.follow place) name := by
  unfold extend enter
  split
  · rfl
  · split
    · split
      · next hdown =>
        simp only [follow, hdown, List.append_nil, List.dropLast_eq_take, List.take_take,
          List.length_take]
        congr 1
        omega
      · next hdown => rw [follow, follow, List.dropLast_append_of_ne_nil hdown]
    · rw [follow, follow, List.append_assoc]

theorem follow_foldl (names : List Text) (r : Route) (place : Place) :
    (names.foldl extend r).follow place = names.foldl enter (r.follow place) := by
  induction names generalizing r with
  | nil => rfl
  | cons name names ih => rw [List.foldl_cons, List.foldl_cons, ih, follow_extend]

/-- What a route goes up it has to come down again, by the same names. -/
theorem prefix_follow_iff (r : Route) (place : Place) :
    place <+: r.follow place ↔ place.drop (place.length - r.up) <+: r.down := by
  have hcut := List.take_append_drop (place.length - r.up) place
  constructor
  · intro h
    rw [follow] at h
    nth_rewrite 1 [← hcut] at h
    exact (List.prefix_append_right_inj _).mp h
  · intro h
    rw [follow]
    nth_rewrite 1 [← hcut]
    exact (List.prefix_append_right_inj _).mpr h

/-- A route that goes up leaves some place for good. -/
theorem exists_not_prefix_follow {r : Route} (h : r.up ≠ 0) :
    ∃ place, ¬ place <+: r.follow place := by
  refine ⟨['x' :: r.down.headD []], fun hprefix => ?_⟩
  rw [prefix_follow_iff, List.length_singleton, show 1 - r.up = 0 by omega, List.drop_zero] at hprefix
  obtain ⟨rest, hrest⟩ := hprefix
  have hhead := congrArg (·.headD []) hrest
  exact absurd (congrArg List.length hhead) (by simp)

end Route

/-- What the components of a save path come to. -/
def route (t : Text) : Route := (Text.split '/' t).foldl Route.extend ⟨0, []⟩

theorem follow_route (t : Text) (place : Place) :
    (route t).follow place = (Text.split '/' t).foldl enter place := by
  rw [route, Route.follow_foldl]
  simp [Route.follow]

theorem up_foldl (names : List Text) (r : Route) (h : ['.', '.'] ∉ names) :
    (names.foldl Route.extend r).up = r.up := by
  induction names generalizing r with
  | nil => rfl
  | cons name names ih =>
    obtain ⟨hname, hrest⟩ := List.ne_and_not_mem_of_not_mem_cons h
    have hstep : (r.extend name).up = r.up := by
      unfold Route.extend
      split
      · rfl
      · rw [if_neg hname.symm]
    rw [List.foldl_cons, ih _ hrest, hstep]

/-- Only a component `..` goes up. -/
theorem up_route {t : Text} (h : ['.', '.'] ∉ Text.split '/' t) : (route t).up = 0 :=
  up_foldl _ _ h

theorem route_slash (t : Text) : route ('/' :: t) = route t := by
  rw [route, Text.split, if_pos rfl]
  rfl

theorem route_stripSlashes (t : Text) : route (stripSlashes t) = route t := by
  induction t with
  | nil => rfl
  | cons c t ih =>
    by_cases hc : c = '/'
    · rw [hc, route_slash, ← ih]
      rfl
    · rw [stripSlashes, List.dropWhile_cons_of_neg (by simpa using hc)]

theorem isAbsolute_stripSlashes (t : Text) : isAbsolute (stripSlashes t) = false := by
  rw [isAbsolute, stripSlashes, decide_eq_false_iff_not]
  intro h
  have hslash := List.head?_dropWhile_not (· == '/') t
  rw [h] at hslash
  cases hslash

/-- The path goes on from where the part in front of a slash leads. -/
theorem resolve_append (start : Place) (dir : Path) (t : Text) :
    resolve start (dir ++ '/' :: t) = (route t).follow (resolve start (dir ++ ['/'])) := by
  have habsolute : isAbsolute (dir ++ '/' :: t) = isAbsolute (dir ++ ['/']) := by
    cases dir <;> rfl
  have hempty : Text.split '/' ([] : Text) = [[]] := rfl
  rw [follow_route, resolve, resolve, habsolute, Text.split_append_cons, Text.split_append_cons,
    List.foldl_append, List.foldl_append, hempty]
  rfl

theorem resolve_slash (start : Place) {dir : Path} (h : dir ≠ []) :
    resolve start (dir ++ ['/']) = resolve start dir := by
  have habsolute : isAbsolute (dir ++ ['/']) = isAbsolute dir := by
    cases dir with
    | nil => exact absurd rfl h
    | cons c dir => rfl
  rw [resolve, resolve, habsolute, Text.split_append_cons, List.foldl_append]
  rfl

theorem resolve_join (start : Place) (dir : Path) {rel : Path} (h : isAbsolute rel = false) :
    resolve start (join dir rel) = (route rel).follow (resolve start dir) := by
  cases dir with
  | nil =>
    rw [join, List.isEmpty_nil, Bool.or_true, if_pos rfl, follow_route, resolve, h]
    rfl
  | cons c dir =>
    have hne : c :: dir ≠ [] := List.cons_ne_nil c dir
    rw [join, h, List.isEmpty_cons, Bool.or_false, if_neg Bool.false_ne_true]
    split
    · next hlast =>
      obtain ⟨front, hfront⟩ := List.getLast?_eq_some_iff.mp hlast
      rw [hfront, List.append_assoc, List.singleton_append, resolve_append]
    · rw [resolve_append, resolve_slash start hne]

end Path

namespace Disk

variable {d d' : Disk} {place other : Place} {entry e : Entry} {names : List Text} {path : Path}
  {t : Text}

/-- A walk to an entry goes by the names alone, for there are no links to follow. -/
theorem walk_place (h : d.walk place entry names = .ok (.taken other e)) :
    other = names.foldl Path.enter place := by
  induction names generalizing place entry with
  | nil => exact (Spot.taken.inj (Except.ok.inj h)).1.symm
  | cons name names ih =>
    rw [List.foldl_cons, Path.enter]
    obtain ⟨_, ⟨hdot, hrest⟩ | ⟨hup, hrest⟩ | ⟨hname, _, _, hrest⟩ | ⟨_, _, hfree⟩⟩ := walk_cons h
    · rw [if_pos hdot, ih hrest]
    · rw [hup, if_neg (by decide), if_pos rfl, ih hrest]
    · obtain ⟨hempty, hdot, hup, _⟩ := hname
      rw [if_neg (by simp [hempty, hdot]), if_neg hup, ih hrest]
    · cases hfree

theorem locate_place (h : d.locate path = .ok (.taken place e)) :
    place = Path.resolve d.workingPlace path := by
  obtain ⟨_, hwalk⟩ := locate_ok_iff.mp h
  exact walk_place hwalk

/-- What is written by a path stands at the place that the text of the path tells. -/
theorem Wrote.place_eq (h : d.Wrote path t d' place) :
    place = Path.resolve d.workingPlace path := by
  rw [← h.workingPlace]
  exact locate_place h.located

end Disk

namespace Output

theorem resolve_destination (start : Place) (dir : Path) (savePath : Text) :
    Path.resolve start (destination dir savePath) =
      (Path.route savePath).follow (Path.resolve start dir) := by
  rw [destination, Path.resolve_join start dir (Path.isAbsolute_stripSlashes savePath),
    Path.route_stripSlashes]

/-- What the text of a save path has to do with the output directory: nothing but where it starts.
The destination is inside exactly if the path comes down again, by the same names, as far as it goes
up; it is inside of every directory exactly if it goes up nowhere, which only a component `..` can
bring about; and that is where a text that is written to it goes. -/
theorem destination_inside_iff (start : Place) (dir : Path) (savePath : Text) :
    (Path.Inside start dir (destination dir savePath) ↔
      (Path.resolve start dir).drop ((Path.resolve start dir).length - (Path.route savePath).up) <+:
        (Path.route savePath).down) ∧
    ((∀ start dir, Path.Inside start dir (destination dir savePath)) ↔
      (Path.route savePath).up = 0) ∧
    (['.', '.'] ∉ Text.split '/' savePath → (Path.route savePath).up = 0) ∧
    ∀ (d : Disk) t d' place, d.Wrote (destination dir savePath) t d' place →
      place = Path.resolve d.workingPlace (destination dir savePath) := by
  have hinside (start : Place) (dir : Path) : Path.Inside start dir (destination dir savePath) ↔
      (Path.resolve start dir).drop ((Path.resolve start dir).length - (Path.route savePath).up) <+:
        (Path.route savePath).down := by
    rw [Path.Inside, resolve_destination, Path.Route.prefix_follow_iff]
  refine ⟨hinside start dir, ⟨fun h => ?_, fun h start dir => ?_⟩, Path.up_route,
    fun d t d' place => Disk.Wrote.place_eq⟩
  · by_contra hup
    obtain ⟨place, hplace⟩ := Path.Route.exists_not_prefix_follow hup
    have hall := h place []
    rw [Path.Inside, resolve_destination] at hall
    exact hplace hall
  · rw [hinside, h, Nat.sub_zero, List.drop_length]
    exact List.nil_prefix

private def yard : Disk := ⟨[(["w".toList], .directory)], ["w".toList]⟩

/-- A way out, a way out and back in, and a text that is written next to the output directory. -/
theorem destination_inside_examples :
    ¬ Path.Inside [] "/work".toList (destination "/work".toList "../x".toList) ∧
    Path.Inside [] "/work".toList (destination "/work".toList "//a/../../work/./x".toList) ∧
    (∀ start dir, Path.Inside start dir (destination dir "/a//./b".toList)) ∧
    ∃ d', yard.Wrote (destination "out".toList "../a.txt".toList) "t".toList d'
      ["w".toList, "a.txt".toList] := by
  obtain ⟨hout, _⟩ := destination_inside_iff [] "/work".toList "../x".toList
  obtain ⟨hback, _⟩ := destination_inside_iff [] "/work".toList "//a/../../work/./x".toList
  obtain ⟨_, heverywhere, hstraight, _⟩ := destination_inside_iff [] [] "/a//./b".toList
  obtain ⟨_, _, _, hplace⟩ := destination_inside_iff [] "out".toList "../a.txt".toList
  refine ⟨hout.not.mpr (by decide), hback.mpr (by decide),
    heverywhere.mpr (hstraight (by decide)), ?_⟩
  have heffect := effect_writeBelow yard (destination "out".toList "../a.txt".toList) "t".toList
  have hwrites : (writeBelow yard (destination "out".toList "../a.txt".toList) "t".toList).2 =
      .ok () := by cbv
  cases hresult : writeBelow yard (destination "out".toList "../a.txt".toList) "t".toList with
  | mk d' result =>
    rw [hresult] at heffect hwrites
    obtain rfl : result = .ok () := hwrites
    obtain ⟨place, hwrote⟩ := heffect
    have hresolved : Path.resolve yard.workingPlace
        (destination "out".toList "../a.txt".toList) = ["w".toList, "a.txt".toList] := by decide
    rw [hplace _ _ _ _ hwrote, hresolved] at hwrote
    exact ⟨d', hwrote⟩

/-- One step up leads out. -/
theorem exists_outside : ¬ ∀ start dir savePath,
    Path.Inside start dir (destination dir savePath) := by
  intro h
  have hinside := h [] "/work".toList "../x".toList
  exact absurd hinside (by decide)

end Output

end Scaffold
