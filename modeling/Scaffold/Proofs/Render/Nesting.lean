import Mathlib.Logic.Function.Iterate
import Mathlib.Logic.Relation
import Scaffold.Render

/-!
Renders within renders. A stub that calls `put` has another stub rendered, which may call `put` in
its turn, and files may name each other in any way. Here one level of this is a function of the way
in which the stubs below are rendered (`Renderer.nest`), and rendering is its fixed point
(`nest_actual`). Main statements: some seventeen levels are enough, whatever is put below them
(`iterate_nest`), the depth grows by one from a stub to one that it depends on and stays within the
limit (`Visit.DependsOn.step`, `Visit.depth_le`), and a stub depends on each stub that it gets to
`put` (`Visit.dependsOn_of_puts`).
-/

namespace Scaffold

/-- A stub that is rendered, with the values it is given and the number of `put` calls around it. -/
structure Visit where
  stub : Stub
  values : Bindings Text
  depth : Nat

namespace Visit

/-- The stub as the helpers that it calls get to see it. -/
def caller (v : Visit) : Caller := v.stub.caller v.values v.depth

end Visit

/-- Some way of rendering stubs. -/
abbrev Renderer := Visit → Except StubError Text

namespace Stub

/-- The helpers that a stub calls are called by that stub. -/
theorem substitute_congr {call other : HelperCall} {s : Stub} {values : Bindings Text} {depth : Nat}
    (h : ∀ name args,
      call (s.caller values depth) name args = other (s.caller values depth) name args) :
    s.substitute call values depth = s.substitute other values depth := by
  have hresolve : resolve call (s.caller values depth) values =
      resolve other (s.caller values depth) values := by
    funext p
    simp only [resolve, baseValue, h]
  simp only [substitute, hresolve]

end Stub

namespace Helper

/-- How helpers are called if `render` renders the stubs that `put` names. The depth is looked at
before the file is. -/
def callVia (env : Surroundings) (render : Renderer) : HelperCall := fun c name args =>
  match c.registry.helpers.get? name, args with
  | some .put, file :: _ =>
    let path := siblingPath c.path file.toText
    if maxPutDepth ≤ c.depth then .error (.nestedTooDeep path)
    else do
      let stub ← Stub.load env.read path c.registry
      let text ← render ⟨stub, c.values, c.depth + 1⟩
      let rendered ← Rendered.ofText text
      pure rendered.body
  | _, _ => callWithin env 0 c name args

end Helper

namespace Renderer

/-- One level of rendering, on top of some way of rendering the stubs below it. -/
def nest (env : Surroundings) (render : Renderer) : Renderer := fun v =>
  v.stub.substitute (Helper.callVia env render) v.values v.depth

/-- Rendering as it is. -/
def actual (env : Surroundings) : Renderer := fun v =>
  v.stub.substitute (Helper.call env) v.values v.depth

end Renderer

namespace Helper

variable {env : Surroundings} {c : Caller} {name : Text} {args : List Value}

/-- Without a `put` of some file, no further levels are needed. -/
theorem callWithin_zero (levels : Nat)
    (h : ¬ (c.registry.helpers.get? name = some .put ∧ args ≠ [])) :
    callWithin env levels c name args = callWithin env 0 c name args := by
  unfold callWithin
  cases hfound : c.registry.helpers.get? name with
  | none => rfl
  | some helper =>
    cases helper with
    | date => rfl
    | custom run => rfl
    | put =>
      cases args with
      | nil => rfl
      | cons file rest => exact absurd ⟨hfound, List.cons_ne_nil file rest⟩ h

theorem callVia_of_not_put (render : Renderer)
    (h : ¬ (c.registry.helpers.get? name = some .put ∧ args ≠ [])) :
    callVia env render c name args = callWithin env 0 c name args := by
  unfold callVia
  split
  · next hfound => exact absurd ⟨hfound, List.cons_ne_nil _ _⟩ h
  · rfl

theorem callVia_put {render : Renderer} {file : Value} {rest : List Value}
    (h : c.registry.helpers.get? name = some .put) :
    callVia env render c name (file :: rest) =
      if maxPutDepth ≤ c.depth then .error (.nestedTooDeep (siblingPath c.path file.toText))
      else (do
        let stub ← Stub.load env.read (siblingPath c.path file.toText) c.registry
        let text ← render ⟨stub, c.values, c.depth + 1⟩
        let rendered ← Rendered.ofText text
        pure rendered.body) := by
  simp only [callVia, h]

/-- Calling helpers is what it is on top of rendering as it is. -/
theorem callVia_actual (env : Surroundings) : callVia env (Renderer.actual env) = call env := by
  funext c name args
  by_cases hput : c.registry.helpers.get? name = some .put ∧ args ≠ []
  · obtain ⟨hfound, hargs⟩ := hput
    obtain ⟨file, rest, rfl⟩ := List.exists_cons_of_ne_nil hargs
    rw [callVia_put hfound]
    by_cases hdepth : maxPutDepth ≤ c.depth
    · have hlevels : maxPutDepth - c.depth = 0 := by omega
      rw [if_pos hdepth, call, hlevels]
      unfold callWithin
      simp only [hfound]
    · obtain ⟨levels, hlevels⟩ : ∃ levels, maxPutDepth - c.depth = levels + 1 :=
        ⟨maxPutDepth - c.depth - 1, by omega⟩
      have hbelow : maxPutDepth - (c.depth + 1) = levels := by omega
      rw [if_neg hdepth, call, hlevels]
      unfold callWithin
      simp only [hfound, Stub.load]
      cases env.read (siblingPath c.path file.toText) with
      | error fault => rfl
      | ok source =>
        have hnested : Renderer.actual env
              ⟨⟨source, some (siblingPath c.path file.toText), c.registry⟩, c.values, c.depth + 1⟩ =
            Stub.substitute (callWithin env levels)
              ⟨source, some (siblingPath c.path file.toText), c.registry⟩ c.values
              (c.depth + 1) := by
          refine Stub.substitute_congr fun name args => ?_
          rw [call]
          simp only [Stub.caller, hbelow]
        simp only [mapError_ok, bind, Except.bind, pure, Except.pure, hnested]
  · rw [callVia_of_not_put _ hput, call, callWithin_zero (maxPutDepth - c.depth) hput]

/-- Two ways of rendering stubs make no difference to a call if they make none to the stubs that the
caller can have rendered: with its registry and its values, one level deeper and within the limit. -/
theorem callVia_congr {f g : Renderer}
    (h : ∀ w : Visit, c.depth < maxPutDepth → w.depth = c.depth + 1 → w.values = c.values →
      w.stub.registry = c.registry → f w = g w) :
    callVia env f c name args = callVia env g c name args := by
  by_cases hput : c.registry.helpers.get? name = some .put ∧ args ≠ []
  · obtain ⟨hfound, hargs⟩ := hput
    obtain ⟨file, rest, rfl⟩ := List.exists_cons_of_ne_nil hargs
    rw [callVia_put hfound, callVia_put hfound]
    split
    · rfl
    · next hdepth =>
      simp only [Stub.load]
      cases env.read (siblingPath c.path file.toText) with
      | error fault => rfl
      | ok source =>
        have hsame := h ⟨⟨source, some (siblingPath c.path file.toText), c.registry⟩, c.values,
          c.depth + 1⟩ (by omega) rfl rfl rfl
        simp only [mapError_ok, bind, Except.bind, pure, Except.pure, hsame]
  · rw [callVia_of_not_put _ hput, callVia_of_not_put _ hput]

end Helper

namespace Renderer

variable {env : Surroundings}

/-- The step of every argument on nesting: what one level draws on. -/
theorem nest_congr {f g : Renderer} {v : Visit}
    (h : ∀ w : Visit, v.depth < maxPutDepth → w.depth = v.depth + 1 →
      w.values = v.stub.scope v.values → w.stub.registry = v.stub.registry → f w = g w) :
    nest env f v = nest env g v :=
  Stub.substitute_congr fun _ _ => Helper.callVia_congr h

theorem nest_actual (env : Surroundings) : nest env (actual env) = actual env := by
  funext v
  rw [nest, Helper.callVia_actual, actual]

/-- Below the limit nothing is rendered any more, so that it does not matter what stands there. -/
theorem iterate_nest (f : Renderer) {levels : Nat} {v : Visit} (h : v.depth ≤ maxPutDepth)
    (hlevels : maxPutDepth < v.depth + levels) : (nest env)^[levels] f v = actual env v := by
  induction levels generalizing v with
  | zero => omega
  | succ levels ih =>
    rw [Function.iterate_succ_apply', ← nest_actual env]
    refine nest_congr fun w hdepth hw _ _ => ?_
    exact ih (by omega) (by omega)

end Renderer

namespace Visit

variable {env : Surroundings} {v w : Visit}

/-- What becomes of `v` depends on what becomes of `w`: some two ways of rendering stubs that
differ on `w` only make a difference to `v`. -/
def DependsOn (env : Surroundings) (v w : Visit) : Prop :=
  ∃ f g : Renderer, (∀ x, x ≠ w → f x = g x) ∧ Renderer.nest env f v ≠ Renderer.nest env g v

/-- A stub hands its registry and its scope to the stubs that it depends on. -/
theorem DependsOn.step (h : DependsOn env v w) :
    v.depth < maxPutDepth ∧ w.depth = v.depth + 1 ∧ w.values = v.stub.scope v.values ∧
      w.stub.registry = v.stub.registry := by
  obtain ⟨f, g, hsame, hdiffer⟩ := h
  by_contra hnot
  refine hdiffer (Renderer.nest_congr fun x hdepth hx hvalues hregistry => hsame x ?_)
  rintro rfl
  exact hnot ⟨hdepth, hx, hvalues, hregistry⟩

theorem depth_le (h : Relation.ReflTransGen (DependsOn env) v w) (hv : v.depth ≤ maxPutDepth) :
    w.depth ≤ maxPutDepth := by
  induction h with
  | refl => exact hv
  | tail _ hlast _ =>
    obtain ⟨hdepth, hstep, _⟩ := hlast.step
    omega

/-- No stub goes on having stubs rendered for ever. -/
theorem wellFounded_dependsOn (env : Surroundings) :
    WellFounded fun w v : Visit => DependsOn env v w := by
  refine Subrelation.wf ?_ (measure fun v : Visit => maxPutDepth - v.depth).wf
  intro w v h
  obtain ⟨hdepth, hstep, _⟩ := h.step
  show maxPutDepth - w.depth < maxPutDepth - v.depth
  omega

/-- The tag of the rendered stub `v` calls `put` with the name of the file of `w`. -/
def Puts (env : Surroundings) (v : Visit) (p : Placeholder) (w : Visit) : Prop :=
  p.isHelper = true ∧ v.stub.registry.helpers.get? p.key = some .put ∧ v.depth < maxPutDepth ∧
    (∃ arg rest, p.args = arg :: rest ∧ Stub.load env.read
      (Helper.siblingPath v.stub.path (arg.resolve v.caller.values).toText) v.stub.registry =
        .ok w.stub) ∧
    w.values = v.stub.scope v.values ∧ w.depth = v.depth + 1

end Visit

namespace Renderer

variable {env : Surroundings}

open Classical in
/-- Rendering as it is, but for one stub, which fails with the given error. -/
noncomputable def failing (env : Surroundings) (w : Visit) (e : StubError) : Renderer :=
  fun v => if v = w then .error e else actual env v

theorem failing_self (w : Visit) (e : StubError) : failing env w e w = .error e := if_pos rfl

theorem failing_of_ne {v w : Visit} (e : StubError) (h : v ≠ w) :
    failing env w e v = actual env v := if_neg h

/-- A call that has the failing stub rendered fails with it; no other call is affected. -/
private theorem callVia_failing (env : Surroundings) (w : Visit) (e : StubError) (c : Caller)
    (name : Text) (args : List Value) :
    Helper.callVia env (failing env w e) c name args = Helper.call env c name args ∨
      Helper.callVia env (failing env w e) c name args = .error e := by
  rw [← Helper.callVia_actual]
  by_cases hput : c.registry.helpers.get? name = some .put ∧ args ≠ []
  · obtain ⟨hfound, hargs⟩ := hput
    obtain ⟨file, rest, rfl⟩ := List.exists_cons_of_ne_nil hargs
    rw [Helper.callVia_put hfound, Helper.callVia_put hfound]
    split
    · exact .inl rfl
    · cases Stub.load env.read (Helper.siblingPath c.path file.toText) c.registry with
      | error fault => exact .inl rfl
      | ok stub =>
        by_cases hw : (⟨stub, c.values, c.depth + 1⟩ : Visit) = w
        · refine .inr ?_
          simp only [hw, failing_self, bind, Except.bind]
        · refine .inl ?_
          simp only [bind, Except.bind, failing_of_ne e hw]
  · rw [Helper.callVia_of_not_put _ hput, Helper.callVia_of_not_put _ hput]
    exact .inl rfl

private theorem resolve_failing (env : Surroundings) (w : Visit) (e : StubError) (c : Caller)
    (values : Bindings Text) (p : Placeholder) :
    Stub.resolve (Helper.callVia env (failing env w e)) c values p =
        Stub.resolve (Helper.call env) c values p ∨
      Stub.resolve (Helper.callVia env (failing env w e)) c values p = .error e := by
  by_cases hkind : p.isHelper = true
  · rcases callVia_failing env w e c p.key (p.args.map (·.resolve c.values)) with h | h
    · refine .inl ?_
      simp only [Stub.resolve, Stub.baseValue, if_pos hkind, h]
    · refine .inr ?_
      simp only [Stub.resolve, Stub.baseValue, if_pos hkind, h, bind, Except.bind]
  · refine .inl ?_
    simp only [Stub.resolve, Stub.baseValue, if_neg hkind]

private theorem resolve_puts {v w : Visit} {p : Placeholder} (h : v.Puts env p w)
    (e : StubError) :
    Stub.resolve (Helper.callVia env (failing env w e)) v.caller v.values p = .error e := by
  obtain ⟨hkind, hfound, hdepth, ⟨arg, rest, hargs, hload⟩, hvalues, hw⟩ := h
  have hvisit : (⟨w.stub, v.caller.values, v.caller.depth + 1⟩ : Visit) = w := by
    obtain ⟨stub, values, depth⟩ := w
    cases hvalues
    cases hw
    rfl
  have hlimit : ¬ maxPutDepth ≤ v.caller.depth := Nat.not_le.mpr hdepth
  have hcall : Helper.callVia env (failing env w e) v.caller p.key
      (p.args.map (·.resolve v.caller.values)) = .error e := by
    rw [hargs, List.map_cons, Helper.callVia_put hfound, if_neg hlimit]
    have hread : Stub.load env.read (Helper.siblingPath v.caller.path
        (arg.resolve v.caller.values).toText) v.caller.registry = .ok w.stub := hload
    simp only [hread, bind, Except.bind, hvisit, failing_self]
  simp only [Stub.resolve, Stub.baseValue, if_pos hkind, hcall, bind, Except.bind]

theorem nest_failing {v w : Visit} {before after : List Placeholder} {p : Placeholder}
    (hpending : v.stub.pending = before ++ p :: after)
    (hbefore : ∀ q ∈ before, ∃ t, Stub.resolve (Helper.call env) v.caller v.values q = .ok t)
    (h : v.Puts env p w) (e : StubError) : nest env (failing env w e) v = .error e := by
  rw [nest, Stub.substitute, hpending]
  show List.foldlM (fun text q => do
    let value ← Stub.resolve (Helper.callVia env (failing env w e)) v.caller v.values q
    pure (Text.replace q.code value text)) v.stub.source (before ++ p :: after) = .error e
  generalize v.stub.source = text
  clear hpending
  induction before generalizing text with
  | nil =>
    rw [List.nil_append, List.foldlM_cons, resolve_puts h]
    rfl
  | cons q before ih =>
    obtain ⟨t, ht⟩ := hbefore q (List.mem_cons_self ..)
    rw [List.cons_append, List.foldlM_cons]
    rcases resolve_failing env w e v.caller v.values q with hq | hq
    · rw [hq, ht]
      exact ih (fun r hr => hbefore r (List.mem_cons_of_mem _ hr)) _
    · rw [hq]
      rfl

end Renderer

namespace Visit

variable {env : Surroundings} {v w : Visit}

/-- Once the tags before it have their texts, a `put` has its stub rendered. -/
theorem dependsOn_of_puts {before after : List Placeholder} {p : Placeholder}
    (hpending : v.stub.pending = before ++ p :: after)
    (hbefore : ∀ q ∈ before, ∃ t, Stub.resolve (Helper.call env) v.caller v.values q = .ok t)
    (h : v.Puts env p w) : v.DependsOn env w := by
  refine ⟨.failing env w (.undefinedHelper []), .failing env w (.undefinedFilter []),
    fun x hx => ?_, ?_⟩
  · rw [Renderer.failing_of_ne _ hx, Renderer.failing_of_ne _ hx]
  · rw [Renderer.nest_failing hpending hbefore h, Renderer.nest_failing hpending hbefore h]
    intro heq
    cases heq

end Visit

end Scaffold
