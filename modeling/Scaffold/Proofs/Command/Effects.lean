import Scaffold.Command.Run
import Scaffold.Proofs.Output.Delivery
import Scaffold.Proofs.Render.Pending

/-!
What a run does to the files. All that can fail comes before the one file that is written, and only
directories are made before that. Main statement: `run_effects`.
-/

namespace Scaffold

namespace Config

theorem workingDir_of_ofSettings {dir : Path} {given : List (Text × Data)} {c : Config}
    (h : ofSettings dir given = .ok c) : c.workingDir = dir := by
  obtain ⟨home, _, h⟩ := bind_eq_ok.mp h
  obtain ⟨stubsDir, _, h⟩ := bind_eq_ok.mp h
  obtain ⟨extension, _, h⟩ := bind_eq_ok.mp h
  obtain rfl := Except.ok.inj h
  rfl

theorem workingDir_of_load {d : Disk} {env : List (Text × Text)} {c : Config}
    (h : load d env = .ok c) : c.workingDir = d.workingPath := by
  rw [load] at h
  split at h
  · exact workingDir_of_ofSettings h
  · split at h
    · exact workingDir_of_ofSettings h
    · cases h

end Config

namespace Command

variable {d d' : Disk} {env : List (Text × Text)} {now : Moment} {o : MakeOptions}
  {r : Rendered} {stub dir : Path} {args : List Text}

theorem dir_of_render (h : render d env now o = .ok (r, stub, dir)) :
    dir = o.output.getD d.workingPath := by
  obtain ⟨⟨config, path, s⟩, hload, h⟩ := bind_eq_ok.mp h
  obtain ⟨values, _, h⟩ := bind_eq_ok.mp h
  obtain ⟨_, _, h⟩ := bind_eq_ok.mp h
  obtain ⟨rendered, _, h⟩ := bind_eq_ok.mp h
  obtain ⟨_, hconfig, hload⟩ := bind_eq_ok.mp hload
  obtain ⟨_, _, hload⟩ := bind_eq_ok.mp hload
  obtain ⟨_, _, hload⟩ := bind_eq_ok.mp hload
  obtain ⟨rfl, _⟩ := Prod.mk.inj (Except.ok.inj hload)
  obtain ⟨_, hpaths⟩ := Prod.mk.inj (Except.ok.inj h)
  obtain ⟨_, rfl⟩ := Prod.mk.inj hpaths
  rw [Config.workingDir_of_load (mapError_eq_ok.mp hconfig)]

/-- What a rendered text is to be written to, as it names it: the file to insert into if it asks
for that, and else its save path. -/
def target? (r : Rendered) : Option Text :=
  match r.append with
  | some directive => directive.file
  | none => if r.savePath.isEmpty then none else some r.savePath

/-- The text is delivered to its target below a directory, and that is what is printed. -/
def Fulfilled (d : Disk) (dir : Path) (policy : ExistingPolicy) (r : Rendered) (printed : String)
    (d' : Disk) : Prop :=
  ∃ target outcome, target? r = some target ∧ printed = outcomeLine outcome target ∧
    Output.Delivered d (Output.destination dir target) policy r outcome d'

theorem effect_write (d : Disk) (dir : Path) (policy : ExistingPolicy) (r : Rendered) :
    Output.Effect d (Fulfilled d dir policy r) (write d dir policy r) := by
  cases hdirective : r.append with
  | none =>
    simp only [write, hdirective]
    split
    · exact Disk.Grown.refl d
    · next hpath =>
      have htarget : target? r = some r.savePath := by
        simp only [target?, hdirective, if_neg hpath]
      refine ((Output.effect_save d _ policy hdirective).map ?_).mapError
      intro outcome d' hdelivered
      exact ⟨r.savePath, outcome, htarget, rfl, hdelivered⟩
  | some directive =>
    obtain ⟨file, position⟩ := directive
    cases file with
    | none =>
      simp only [write, hdirective]
      exact Disk.Grown.refl d
    | some file =>
      have htarget : target? r = some file := by simp only [target?, hdirective]
      simp only [write, hdirective]
      refine ((Output.effect_append d _ policy hdirective).map ?_).mapError
      intro outcome d' hdelivered
      exact ⟨file, outcome, htarget, rfl, hdelivered⟩

/-- What a `make` is to bring about; a text that is only printed leaves the disk alone. -/
def Made (d : Disk) (env : List (Text × Text)) (now : Moment) (o : MakeOptions) (printed : String)
    (d' : Disk) : Prop :=
  ∃ r stub, render d env now o = .ok (r, stub, o.output.getD d.workingPath) ∧
    if o.dump = true then d' = d
    else Fulfilled d (o.output.getD d.workingPath) (policy o) r printed d'

theorem effect_runMake (d : Disk) (env : List (Text × Text)) (now : Moment) (o : MakeOptions) :
    Output.Effect d (Made d env now o) (runMake d env now o) := by
  cases hrender : render d env now o with
  | error e =>
    simp only [runMake, hrender]
    exact Disk.Grown.refl d
  | ok parts =>
    obtain ⟨r, stub, dir⟩ := parts
    obtain rfl := dir_of_render hrender
    simp only [runMake, hrender]
    by_cases hdump : o.dump = true
    · rw [if_pos hdump]
      refine ⟨r, stub, hrender, ?_⟩
      rw [if_pos hdump]
    · rw [if_neg hdump]
      have hwrite := effect_write d (o.output.getD d.workingPath) (policy o) r
      refine hwrite.imp fun printed d' hfulfilled => ⟨r, stub, hrender, ?_⟩
      rwa [if_neg hdump]

theorem runMake_dump (d : Disk) (env : List (Text × Text)) (now : Moment) (h : o.dump = true) :
    (runMake d env now o).1 = d := by
  unfold runMake
  split
  · rfl
  · rw [if_pos h]

theorem run_make {verbose : Bool} (h : Invocation.ofArguments args = .ok ⟨verbose, .make o⟩) :
    run d env now args = ((runMake d env now o).1, .ofResult (runMake d env now o).2) := by
  simp only [run, h]

/-- A run changes no file, but for a successful `make` that does more than print, which brings
about what its outcome says, at the target below the output directory and nowhere else. -/
theorem run_effects (d : Disk) (env : List (Text × Text)) (now : Moment) (args : List Text) :
    ((∀ verbose o, Invocation.ofArguments args ≠ .ok ⟨verbose, .make o⟩) →
      (run d env now args).1 = d) ∧
    ∀ verbose o, Invocation.ofArguments args = .ok ⟨verbose, .make o⟩ →
      (o.dump = true → (run d env now args).1 = d) ∧
      ((run d env now args).2.code ≠ 0 → d.Grown (run d env now args).1) ∧
      ((run d env now args).2.code = 0 → o.dump = false →
        ∃ r stub, render d env now o = .ok (r, stub, o.output.getD d.workingPath) ∧
          Fulfilled d (o.output.getD d.workingPath) (policy o) r (run d env now args).2.stdout
            (run d env now args).1) := by
  constructor
  · intro hother
    unfold run
    split
    · rfl
    · rfl
    · rfl
    · next verbose o hmake => exact absurd hmake (hother verbose o)
    · rfl
  · intro verbose o hmake
    have heffect := effect_runMake d env now o
    rw [run_make hmake]
    cases hresult : runMake d env now o with
    | mk d' result =>
      rw [hresult] at heffect
      refine ⟨fun hdump => ?_, ?_⟩
      · have hsame := runMake_dump d env now hdump
        rwa [hresult] at hsame
      · cases result with
        | error e =>
          have hcode : (1 : UInt8) ≠ 0 := by decide
          exact ⟨fun _ => heffect, fun hzero => absurd hzero hcode⟩
        | ok printed =>
          refine ⟨fun hcode => absurd rfl hcode, fun _ hdump => ?_⟩
          obtain ⟨r, stub, hrender, hmade⟩ := heffect
          refine ⟨r, stub, hrender, ?_⟩
          rwa [if_neg (Bool.eq_false_iff.mp hdump)] at hmade

private def workshop : Disk :=
  ⟨[(["w".toList], .directory), (["w".toList, "stubs".toList], .directory),
    (["w".toList, "stubs".toList, "a.stub".toList],
      .file (.text "===\npath='a'\n===\n\x7b? k ?\x7d".toList))], ["w".toList]⟩

private def tool : Stub :=
  ⟨"===\npath='a'\n===\n\x7b? k ?\x7d".toList, some "/w/stubs/a.stub".toList, .default⟩

private def product : Rendered :=
  ⟨"v".toList, [("path".toList, .text "a".toList)], "a".toList, none⟩

private def making (values : List Text) (dump : Bool) : MakeOptions :=
  ⟨"a".toList, values, dump, false, false, none⟩

private theorem load_workshop : load workshop [] "a".toList =
    .ok (⟨none, "stubs".toList, "stub".toList, "/w".toList⟩, "/w/stubs/a.stub".toList, tool) := by
  have hconfig : Config.load workshop [] =
      .ok ⟨none, "stubs".toList, "stub".toList, "/w".toList⟩ := by cbv
  have hquery : Query.ofText "a".toList = ⟨none, "a".toList⟩ := by decide
  have hlocate : locate workshop ⟨none, "stubs".toList, "stub".toList, "/w".toList⟩ "a".toList =
      .ok "/w/stubs/a.stub".toList := by
    rw [locate, Config.resolve?, Config.find?, hquery]
    cbv
  have hread : workshop.read "/w/stubs/a.stub".toList = .ok tool.source := by cbv
  simp only [load, hconfig, mapError_ok, bind, Except.bind, hlocate, Stub.load, hread, pure,
    Except.pure]
  rfl

private theorem render_workshop (dump : Bool) :
    render workshop [] ⟨0, 0⟩ (making ["k:v".toList] dump) =
      .ok (product, "/w/stubs/a.stub".toList, "/w".toList) := by
  have hread : Parameters.read ["k:v".toList] = .ok [("k".toList, "v".toList)] := by decide
  have haccept : tool.accept [("k".toList, "v".toList)] = .ok () := by decide
  have hpending : tool.pending = (Tag.scan tool.source).map Placeholder.ofTag :=
    Stub.pending_of_descending (by decide)
  have htext : tool.renderText ⟨workshop.read, ⟨0, 0⟩⟩ [("k".toList, "v".toList)] =
      .ok "===\npath='a'\n===\nv".toList := by
    rw [Stub.renderText, Stub.substitute, hpending]
    rfl
  have hproduct : Rendered.ofText "===\npath='a'\n===\nv".toList = .ok product := by cbv
  simp only [render, making, load_workshop, bind, Except.bind, hread, mapError_ok, haccept,
    Stub.render, htext, hproduct, pure, Except.pure]
  rfl

private theorem render_malformed : render workshop [] ⟨0, 0⟩ (making ["k".toList] false) =
    .error (.parameter (.malformed "k".toList)) := by
  have hread : Parameters.read ["k".toList] = .error (.malformed "k".toList) := by decide
  simp only [render, making, load_workshop, bind, Except.bind, hread, mapError_error]

/-- One run that describes, one that prints, one that fails and one that makes a file. -/
theorem run_effects_workshop :
    (run workshop [] ⟨0, 0⟩ ["info".toList, "a".toList]).1 = workshop ∧
      (run workshop [] ⟨0, 0⟩ ["make".toList, "a".toList, "k:v".toList, "-d".toList]).1 =
        workshop ∧
      workshop.Grown (run workshop [] ⟨0, 0⟩ ["make".toList, "a".toList, "k".toList]).1 ∧
      ∃ r stub, render workshop [] ⟨0, 0⟩ (making ["k:v".toList] false) =
          .ok (r, stub, workshop.workingPath) ∧
        Fulfilled workshop workshop.workingPath .refuse r "   create a\n"
          (run workshop [] ⟨0, 0⟩ ["make".toList, "a".toList, "k:v".toList]).1 := by
  have hinfo : Invocation.ofArguments ["info".toList, "a".toList] =
      .ok ⟨false, .info "a".toList⟩ := by cbv
  have hdump : Invocation.ofArguments ["make".toList, "a".toList, "k:v".toList, "-d".toList] =
      .ok ⟨false, .make (making ["k:v".toList] true)⟩ := by cbv
  have hbad : Invocation.ofArguments ["make".toList, "a".toList, "k".toList] =
      .ok ⟨false, .make (making ["k".toList] false)⟩ := by cbv
  have hgood : Invocation.ofArguments ["make".toList, "a".toList, "k:v".toList] =
      .ok ⟨false, .make (making ["k:v".toList] false)⟩ := by cbv
  have hfailed : (run workshop [] ⟨0, 0⟩ ["make".toList, "a".toList, "k".toList]).2.code ≠ 0 := by
    rw [run_make hbad]
    simp only [runMake, render_malformed]
    decide
  have hreport : (run workshop [] ⟨0, 0⟩ ["make".toList, "a".toList, "k:v".toList]).2 =
      ⟨0, "   create a\n", ""⟩ := by
    rw [run_make hgood]
    simp only [runMake, render_workshop]
    cbv
  have hmade := ((run_effects workshop [] ⟨0, 0⟩ _).2 _ _ hgood).2.2
  rw [hreport] at hmade
  refine ⟨(run_effects workshop [] ⟨0, 0⟩ _).1 fun verbose o hmake => ?_,
    ((run_effects workshop [] ⟨0, 0⟩ _).2 _ _ hdump).1 rfl,
    ((run_effects workshop [] ⟨0, 0⟩ _).2 _ _ hbad).2.1 hfailed, hmade rfl rfl⟩
  rw [hinfo] at hmake
  cases hmake

end Command

end Scaffold
