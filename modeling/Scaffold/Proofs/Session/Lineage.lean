import Mathlib.Data.List.Forall2
import Scaffold.Proofs.Render.Scope
import Scaffold.Session

/-!
What a registry or a stub of a session goes back to. A call makes the holder of one name, from
nothing or from the holder of another (`Session.held_perform`); the calls met on the way back from a
name are its lineage (`Session.lineage`). Main statement: a render answers for the stub that its
lineage makes, whatever other calls there are or are not (`Session.render_of_lineage`).
-/

namespace Scaffold

namespace Bindings

theorem get?_insert {α : Type} (name other : Text) (a : α) (b : Bindings α) :
    get? other (insert name a b) = if name = other then some a else get? other b := by
  split
  · next h => rw [← h, get?_insert_self]
  · next h => exact get?_insert_of_ne (Ne.symm h) a b

end Bindings

/-- A name of a session: registries and stubs have names of their own. -/
inductive Slot where
  | registry (id : Text)
  | stub (id : Text)
  deriving DecidableEq, Repr

/-- What stands under a name: a registry, and for a stub also its source and its file. -/
structure Holding where
  source : Option (Text × Option Path)
  registry : Registry

namespace Holding

def stub? (h : Holding) : Option Stub := h.source.map fun s => ⟨s.1, s.2, h.registry⟩

end Holding

namespace Action

variable (env : Surroundings)

/-- The name whose holder the call makes or changes, if it has something to make it from. -/
def target? : Action → Option Slot
  | .create id _ | .copy id _ | .register id _ => some (.registry id)
  | .makeStub id _ _ | .copyStub id _ | .registerOnStub id _ => some (.stub id)
  | .loadStub id _ path => if (env.read path).toOption.isSome then some (.stub id) else none
  | _ => none

/-- The name whose holder the call starts from. -/
def origin? : Action → Option Slot
  | .copy _ source => some (.registry source)
  | .register id _ => some (.registry id)
  | .makeStub _ registry _ | .loadStub _ registry _ => some (.registry registry)
  | .copyStub _ source => some (.stub source)
  | .registerOnStub id _ => some (.stub id)
  | _ => none

/-- The registry that a call makes from nothing. -/
def base : Action → Registry
  | .create _ true => .default
  | _ => .empty

def registration? : Action → Option Registration
  | .register _ registration | .registerOnStub _ registration => some registration
  | _ => none

/-- The source and the file of the stub that a call makes from a registry. -/
def source? : Action → Option (Text × Option Path)
  | .makeStub _ _ source => some (source, none)
  | .loadStub _ _ path => (env.read path).toOption.map (·, some path)
  | _ => none

/-- What the call makes of what it starts from. -/
def makes (a : Action) (h : Holding) : Holding :=
  ⟨h.source.or (a.source? env), h.registry.replay a.registration?.toList⟩

end Action

namespace Session

variable {env : Surroundings}

/-- What stands under a name. -/
def held (s : Session) : Slot → Option Holding
  | .registry id => (s.registries.get? id).map (⟨none, ·⟩)
  | .stub id => (s.stubs.get? id).map fun stub => ⟨some (stub.source, stub.path), stub.registry⟩

theorem held_putRegistry (s : Session) (id : Text) (r : Registry) (x : Slot) :
    (s.putRegistry id r).1.held x = if .registry id = x then some ⟨none, r⟩ else s.held x := by
  cases x with
  | registry other =>
    simp only [held, putRegistry, Bindings.get?_insert, Slot.registry.injEq]
    split <;> rfl
  | stub other => simp [held, putRegistry]

theorem held_putStub (s : Session) (id : Text) (stub : Stub) (x : Slot) :
    (s.putStub id stub).1.held x =
      if .stub id = x then some ⟨some (stub.source, stub.path), stub.registry⟩
      else s.held x := by
  cases x with
  | registry other => simp [held, putStub]
  | stub other =>
    simp only [held, putStub, Bindings.get?_insert, Slot.stub.injEq]
    split <;> rfl

/-- A call that only asks leaves the session as it is. -/
theorem fst_withEntry {α : Type} (s : Session) (entry : Option α) (f : α → Answer) :
    (s.withEntry entry fun a => (s, f a)).1 = s := by
  cases entry with
  | none => rfl
  | some a => rfl

/-- A call that makes a holder of another one does so if that one is there. -/
theorem held_withEntry {α : Type} {s : Session} {entry : Option α} {f : α → Session × Answer}
    {hold : α → Holding} {make : Holding → Holding} {target : Option Slot} {x : Slot}
    (h : ∀ a, entry = some a →
      (f a).1.held x = if target = some x then some (make (hold a)) else s.held x) :
    (s.withEntry entry f).1.held x =
      if target = some x then ((entry.map hold).map make).or (s.held x) else s.held x := by
  cases entry with
  | none => exact (ite_self _).symm
  | some a =>
    rw [withEntry, h a rfl]
    split <;> rfl

/-- The step of every argument on sessions: a call changes what stands under its target, and only
if there is something that it can start from. -/
theorem held_perform (s : Session) (a : Action) (x : Slot) :
    (s.perform env a).1.held x =
      if a.target? env = some x then
        match a.origin? with
        | none => some ⟨none, a.base⟩
        | some y => ((s.held y).map (a.makes env)).or (s.held x)
      else s.held x := by
  cases a with
  | create id builtIn =>
    rw [perform, held_putRegistry]
    cases builtIn <;> simp [Action.target?, Action.origin?, Action.base]
  | copy id source | register id registration =>
    refine held_withEntry fun r _ => ?_
    rw [held_putRegistry]
    simp [Action.target?, Action.makes, Action.source?, Action.registration?, Registry.replay]
  | makeStub id registry source =>
    refine held_withEntry fun r _ => ?_
    rw [held_putStub]
    simp [Action.target?, Action.makes, Action.source?, Action.registration?, Registry.replay,
      Stub.ofSource]
  | loadStub id registry path =>
    refine held_withEntry fun r _ => ?_
    cases hread : env.read path with
    | error fault =>
      simp [Stub.load, hread, mapError_error, Except.toOption, Action.target?, bind, Except.bind]
    | ok source =>
      simp only [Stub.load, hread, mapError_ok, bind, Except.bind, pure, Except.pure, held_putStub]
      simp [Action.target?, Action.makes, Action.source?, Action.registration?, Registry.replay,
        Except.toOption, hread]
  | copyStub id source | registerOnStub id registration =>
    refine held_withEntry fun stub _ => ?_
    rw [held_putStub]
    simp [Action.target?, Action.makes, Action.source?, Action.registration?, Registry.replay]
  | names | has | apply | call | describe | render =>
    rw [perform, fst_withEntry]
    rfl

/-! ## The calls that a name goes back to -/

/-- The session after some calls, of which the latest comes first. -/
def since (env : Surroundings) (past : List Action) : Session :=
  past.foldr (fun a s => (s.perform env a).1) empty

/-- Which of the calls, of which the latest comes first, a name goes back to: those that made its
holder and, before them, those that made what they started from. -/
def bears (env : Surroundings) : List Action → Slot → List Bool
  | [], _ => []
  | a :: past, x =>
    if a.target? env = some x then
      match a.origin? with
      | none => true :: List.replicate past.length false
      | some y =>
        if ((since env past).held y).isSome then true :: bears env past y
        else false :: bears env past x
    else false :: bears env past x

/-- The calls that are marked. -/
def kept : List Bool → List Action → List Action
  | mark :: marks, a :: past => if mark then a :: kept marks past else kept marks past
  | _, _ => []

/-- The calls that a name goes back to, the first of them first. -/
def lineage (env : Surroundings) (past : List Action) (x : Slot) : List Action :=
  (kept (bears env past x) past).reverse

/-- What calls make that start from nothing and then each from what the one before has made: the
registry of the first with all registrations of the others, and the source that came in. -/
def rebuilt? (env : Surroundings) : List Action → Option Holding
  | [] => none
  | a :: calls => some ⟨calls.findSome? (·.source? env),
      a.base.replay (calls.filterMap (·.registration?))⟩

theorem rebuilt?_concat {calls : List Action} (h : calls ≠ []) (a : Action) :
    rebuilt? env (calls ++ [a]) = (rebuilt? env calls).map (a.makes env) := by
  cases calls with
  | nil => exact absurd rfl h
  | cons first calls =>
    cases hregistration : a.registration? with
    | none => simp [rebuilt?, Action.makes, Registry.replay, hregistration]
    | some r => simp [rebuilt?, Action.makes, Registry.replay, hregistration]

theorem kept_none (past : List Action) : kept (List.replicate past.length false) past = [] := by
  induction past with
  | nil => rfl
  | cons a past ih => exact ih

theorem held_since_cons (a : Action) (past : List Action) (x : Slot) :
    (since env (a :: past)).held x =
      if a.target? env = some x then
        match a.origin? with
        | none => some ⟨none, a.base⟩
        | some y => (((since env past).held y).map (a.makes env)).or ((since env past).held x)
      else (since env past).held x :=
  held_perform (since env past) a x

theorem lineage_cons (a : Action) (past : List Action) (x : Slot) :
    lineage env (a :: past) x =
      if a.target? env = some x then
        match a.origin? with
        | none => [a]
        | some y =>
          if ((since env past).held y).isSome then lineage env past y ++ [a]
          else lineage env past x
      else lineage env past x := by
  rw [lineage, bears]
  split
  · cases a.origin? with
    | none => simp [kept, kept_none]
    | some y =>
      dsimp only
      split <;> simp [kept, lineage]
  · simp [kept, lineage]

/-- A name holds what its lineage makes. -/
theorem held_since (env : Surroundings) (past : List Action) (x : Slot) :
    (since env past).held x = rebuilt? env (lineage env past x) := by
  induction past generalizing x with
  | nil => cases x <;> rfl
  | cons a past ih =>
    rw [held_since_cons, lineage_cons]
    split
    · cases a.origin? with
      | none => rfl
      | some y =>
        cases hy : (since env past).held y with
        | none =>
          simp only [hy, Option.isSome_none, Bool.false_eq_true, if_false, Option.map_none,
            Option.none_or]
          exact ih x
        | some h =>
          have hne : lineage env past y ≠ [] := by
            intro hnil
            rw [ih y, hnil] at hy
            cases hy
          simp [rebuilt?_concat hne, ← ih y, hy]
    · exact ih x

/-! ## Leaving calls out -/

/-- Calls that are left out bring nothing to a name that had nothing. -/
theorem held_kept_isSome (marks : List Bool) {past : List Action} {x : Slot}
    (hlength : marks.length = past.length)
    (h : ((since env (kept marks past)).held x).isSome = true) :
    ((since env past).held x).isSome = true := by
  induction past generalizing marks x with
  | nil =>
    cases marks with
    | nil => exact h
    | cons => cases hlength
  | cons a past ih =>
    obtain ⟨mark, marks, rfl⟩ := List.exists_cons_of_length_eq_add_one hlength
    have hrest : marks.length = past.length := Nat.succ.inj hlength
    rw [held_since_cons]
    cases mark with
    | false =>
      have hx := ih marks hrest h
      split
      · cases a.origin? with
        | none => rfl
        | some y => simp [hx]
      · exact hx
    | true =>
      have hcall : ((since env (a :: kept marks past)).held x).isSome = true := h
      rw [held_since_cons] at hcall
      split
      · next htarget =>
        rw [if_pos htarget] at hcall
        cases horigin : a.origin? with
        | none => rfl
        | some y =>
          rw [horigin] at hcall
          simp only [Option.isSome_or, Option.isSome_map, Bool.or_eq_true] at hcall ⊢
          exact hcall.imp (ih marks hrest) (ih marks hrest)
      · next htarget =>
        rw [if_neg htarget] at hcall
        exact ih marks hrest hcall

theorem length_bears (env : Surroundings) (past : List Action) (x : Slot) :
    (bears env past x).length = past.length := by
  induction past generalizing x with
  | nil => rfl
  | cons a past ih =>
    rw [bears]
    split
    · cases a.origin? with
      | none => simp
      | some y =>
        dsimp only
        split <;> simp [ih]
    · simp [ih]

/-- A name holds the same if calls outside of its lineage are left out. -/
theorem held_kept {marks : List Bool} {past : List Action} {x : Slot}
    (h : List.Forall₂ (· ≤ ·) (bears env past x) marks) :
    (since env (kept marks past)).held x = (since env past).held x := by
  induction past generalizing marks x with
  | nil =>
    cases h
    rfl
  | cons a past ih =>
    rw [held_since_cons]
    rw [bears] at h
    by_cases htarget : a.target? env = some x
    · rw [if_pos htarget] at h ⊢
      cases horigin : a.origin? with
      | none =>
        rw [horigin] at h
        obtain ⟨mark, marks, hmark, _, rfl⟩ := List.forall₂_cons_left_iff.mp h
        obtain rfl : mark = true := hmark rfl
        rw [kept, if_pos rfl, held_since_cons, if_pos htarget, horigin]
      | some y =>
        rw [horigin] at h
        cases hy : (since env past).held y with
        | some holding =>
          simp only [hy, Option.isSome_some, if_true] at h
          obtain ⟨mark, marks, hmark, hrest, rfl⟩ := List.forall₂_cons_left_iff.mp h
          obtain rfl : mark = true := hmark rfl
          rw [kept, if_pos rfl, held_since_cons, if_pos htarget, horigin]
          simp only [ih hrest, hy, Option.map_some, Option.some_or]
        | none =>
          simp only [hy, Option.isSome_none, Bool.false_eq_true, if_false] at h
          obtain ⟨mark, marks, _, hrest, rfl⟩ := List.forall₂_cons_left_iff.mp h
          have hlength : marks.length = past.length :=
            hrest.length_eq.symm.trans (length_bears env past x)
          have hnone : (since env (kept marks past)).held y = none := by
            rw [← Option.not_isSome_iff_eq_none]
            intro hsome
            have hfull := held_kept_isSome marks hlength hsome
            rw [hy] at hfull
            cases hfull
          cases mark with
          | false =>
            simp only [hy, Option.map_none, Option.none_or]
            rw [kept, if_neg Bool.false_ne_true, ih hrest]
          | true =>
            rw [kept, if_pos rfl, held_since_cons, if_pos htarget, horigin]
            simp only [hnone, hy, Option.map_none, Option.none_or, ih hrest]
    · rw [if_neg htarget] at h ⊢
      obtain ⟨mark, marks, _, hrest, rfl⟩ := List.forall₂_cons_left_iff.mp h
      cases mark with
      | false => rw [kept, if_neg Bool.false_ne_true, ih hrest]
      | true => rw [kept, if_pos rfl, held_since_cons, if_neg htarget, ih hrest]

/-! ## Answers -/

theorem run_append (env : Surroundings) (s : Session) (before after : List Action) :
    s.run env (before ++ after) =
      s.run env before ++ (before.foldl (fun s a => (s.perform env a).1) s).run env after := by
  induction before generalizing s with
  | nil => rfl
  | cons a before ih => simp [run, ih]

theorem length_run (env : Surroundings) (s : Session) (actions : List Action) :
    (s.run env actions).length = actions.length := by
  induction actions generalizing s with
  | nil => rfl
  | cons a actions ih => simp [run, ih]

/-- The answer to a call is that of the session which the calls before it have made. -/
theorem run_answer (env : Surroundings) (past : List Action) (a : Action) (after : List Action) :
    (empty.run env (past.reverse ++ a :: after))[past.length]? =
      some ((since env past).perform env a).2 := by
  have hlength : (empty.run env past.reverse).length = past.length := by
    rw [length_run, List.length_reverse]
  rw [run_append, List.getElem?_append_right (Nat.le_of_eq hlength), hlength, Nat.sub_self,
    List.foldl_reverse]
  rfl

/-- The answer to a render of a stub, if there is one. -/
def rendering (env : Surroundings) (stub : Option Stub) (values : Bindings Text) : Answer :=
  match stub with
  | none => .unknown
  | some stub => answer .rendered (stub.render env values)

theorem perform_render (s : Session) (id : Text) (values : Bindings Text) :
    (s.perform env (.render id values)).2 =
      rendering env ((s.held (.stub id)).bind Holding.stub?) values := by
  cases hfound : s.stubs.get? id with
  | none => simp [perform, withEntry, held, hfound, rendering]
  | some stub => simp [perform, withEntry, held, hfound, rendering, Holding.stub?]

/-- A render answers for the stub that its lineage makes, with no other call having a say in it:
neither those that come later nor those that are left out before. And whatever has been registered,
the catalog is handed out as it is. -/
theorem render_of_lineage (env : Surroundings) (past : List Action) :
    (∀ id values after,
      (empty.run env (past.reverse ++ .render id values :: after))[past.length]? =
        some (rendering env
          ((rebuilt? env (lineage env past (.stub id))).bind Holding.stub?) values)) ∧
    (∀ id values after marks, List.Forall₂ (· ≤ ·) (bears env past (.stub id)) marks →
      ∀ others,
        (empty.run env ((kept marks past).reverse ++ .render id values :: others))[
            (kept marks past).length]? =
          (empty.run env (past.reverse ++ .render id values :: after))[past.length]?) ∧
    ∀ id, (since env (.create id true :: past)).registries.get? id = some .default := by
  refine ⟨fun id values after => ?_, fun id values after marks h others => ?_, fun id => ?_⟩
  · rw [run_answer, perform_render, held_since]
  · rw [run_answer, run_answer, perform_render, perform_render, held_kept h]
  · exact Bindings.get?_insert_self id _ _

/-- A stub is made from a registry, in which the filter of the stub is then replaced. -/
private def replacing : List Action :=
  [.register ['r'] (.filter ['f'] fun t _ => .ok (t ++ ['?'])),
    .makeStub ['s'] ['r'] "\x7b?a.f?\x7d".toList,
    .register ['r'] (.filter ['f'] fun t _ => .ok (t ++ ['!'])), .create ['r'] true]

/-- The stub keeps the filter that it was made with. -/
theorem render_of_lineage_replacing :
    bears .bare replacing (.stub ['s']) = [false, true, true, true] ∧
    (empty.run .bare ((kept [false, true, true, true] replacing).reverse ++
        .render ['s'] [(['a'], ['x'])] :: []))[3]? =
      (empty.run .bare (replacing.reverse ++ .render ['s'] [(['a'], ['x'])] :: []))[4]? := by
  have hbears : bears .bare replacing (.stub ['s']) = [false, true, true, true] := rfl
  refine ⟨hbears, ?_⟩
  have hcovers : List.Forall₂ (· ≤ ·) (bears .bare replacing (.stub ['s']))
      [false, true, true, true] := hbears ▸ List.forall₂_same.mpr fun mark _ => Bool.le_refl mark
  exact (render_of_lineage .bare replacing).2.1 ['s'] [(['a'], ['x'])] [] _ hcovers []

end Session

end Scaffold
