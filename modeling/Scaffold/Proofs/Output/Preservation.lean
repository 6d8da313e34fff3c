import Mathlib
import Scaffold.Output
import Scaffold.Proofs.Disk.Lookup
import Scaffold.Proofs.Output.Insertion

/-!
What saving and appending do to the files that are there already. A step looks at its path, then
makes directories, then writes, and the path may lead elsewhere the second time. Main statements:
a run of guarded steps loses a line exactly if such a path leads to a file that has it
(`lossless_iff_steady`), and in a tree only paths with `..` do so (`lossless_of_straight`).
-/

namespace Scaffold

namespace Content

/-- The lines of a text are still there and in order; other bytes are as they were. -/
def Retained : Content → Content → Prop
  | .text t, .text t' => (Position.lines t).Sublist (Position.lines t')
  | .text _, .binary _ => False
  | .binary bytes, c => c = .binary bytes

instance : DecidableRel Retained
  | .text t, .text t' =>
    inferInstanceAs (Decidable ((Position.lines t).Sublist (Position.lines t')))
  | .text _, .binary _ => inferInstanceAs (Decidable False)
  | .binary bytes, c => inferInstanceAs (Decidable (c = .binary bytes))

theorem Retained.refl (c : Content) : c.Retained c := by
  cases c with
  | text t => exact List.Sublist.refl _
  | binary bytes => rfl

theorem Retained.trans {a b c : Content} (hab : a.Retained b) (hbc : b.Retained c) :
    a.Retained c := by
  cases a with
  | text t =>
    cases b with
    | binary bytes => cases hab
    | text t' =>
      cases c with
      | binary bytes => cases hbc
      | text t'' => exact List.Sublist.trans hab hbc
  | binary bytes =>
    obtain rfl : b = .binary bytes := hab
    exact hbc

end Content

namespace Output

inductive Step where
  | save (path : Path) (content : Text) (policy : ExistingPolicy)
  | append (path : Path) (position : Position) (content : Text)
  deriving DecidableEq, Repr

namespace Step

def path : Step → Path
  | .save path _ _ => path
  | .append path _ _ => path

/-- What the step writes if there is no file yet. -/
def fresh : Step → Text
  | .save _ content _ => content
  | .append _ position content => position.insert none content

/-- The step asks neither to overwrite a file nor, with a line number below 1, to replace it. -/
def Guarded : Step → Prop
  | .save _ _ policy => policy ≠ .overwrite
  | .append _ position _ => ∀ n, position = .line n → 1 ≤ n

end Step

/-- The disk after a step, whether the step succeeds or fails. -/
def perform (d : Disk) : Step → Disk
  | .save path content policy => (save d path content policy).1
  | .append path position content => (append d path position content).1

def after (d : Disk) (steps : List Step) : Disk := steps.foldl perform d

/-- Each file is still there with all it had. -/
def Keeps (d d' : Disk) : Prop :=
  ∀ place c, d.entry? place = some (.file c) →
    ∃ c', d'.entry? place = some (.file c') ∧ c.Retained c'

/-- The path leads nowhere, and to a file once the directories on the way are made. -/
def Strays (d : Disk) (path : Path) (place : Place) (c : Content) : Prop :=
  d.exists? path = .ok false ∧
    ∃ d', d.makeDirectories ((Path.parent? path).getD []) = (d', .ok ()) ∧
      d'.locate path = .ok (.taken place (.file c))

/-- No moment of the run lacks what an earlier one had. -/
def Lossless (d : Disk) (steps : List Step) : Prop :=
  ∀ before middle rest, steps = before ++ middle ++ rest →
    Keeps (after d before) (after d (before ++ middle))

/-- A step that strays to a file writes the lines of that file. -/
def Steady : Disk → List Step → Prop
  | _, [] => True
  | d, step :: steps =>
    (∀ place c, Strays d step.path place c → c.Retained (.text step.fresh)) ∧
      Steady (perform d step) steps

variable {d d' d'' : Disk} {step : Step} {steps : List Step} {path : Path} {place : Place}
  {c : Content} {t : Text}

theorem Keeps.refl (d : Disk) : Keeps d d := fun _ c h => ⟨c, h, .refl c⟩

theorem Keeps.trans (h : Keeps d d') (h' : Keeps d' d'') : Keeps d d'' := by
  intro place c hc
  obtain ⟨c', hc', hretained⟩ := h place c hc
  obtain ⟨c'', hc'', hretained'⟩ := h' place c' hc'
  exact ⟨c'', hc'', hretained.trans hretained'⟩

theorem keeps_of_grown (h : Disk.Grown d d') : Keeps d d' :=
  fun place c hc => ⟨c, h.kept place _ hc, .refl c⟩

theorem keeps_put (hg : Disk.Grown d d')
    (h : ∀ c, d'.entry? place = some (.file c) → c.Retained (.text t)) :
    Keeps d (d'.put place (.file (.text t))) := by
  intro other c hc
  have hc' := hg.kept other _ hc
  by_cases hother : place = other
  · subst hother
    have hne : place ≠ [] := Disk.ne_nil_of_entry? (by rw [hc]; exact nofun)
    exact ⟨.text t, d'.entry?_put_self _ hne, h c hc'⟩
  · exact ⟨c, by rw [d'.entry?_put_of_ne _ hother, hc'], .refl c⟩

/-- All that writing below a directory can do. -/
theorem writeBelow_cases (d : Disk) (path : Path) (t : Text) :
    (∃ e, writeBelow d path t =
        ((d.makeDirectories ((Path.parent? path).getD [])).1, .error e)) ∨
      ∃ d' place, d.makeDirectories ((Path.parent? path).getD []) = (d', .ok ()) ∧
        writeBelow d path t = (d'.put place (.file (.text t)), .ok ()) ∧
        (d'.locate path = .ok (.free place false) ∨
          ∃ c, d'.locate path = .ok (.taken place (.file c))) := by
  cases hmake : d.makeDirectories ((Path.parent? path).getD []) with
  | mk d' result =>
    cases result with
    | error f =>
      refine .inl ⟨.unwritable ((Path.parent? path).getD []) f, ?_⟩
      simp only [writeBelow, hmake]
    | ok =>
      cases hwrite : d'.write path t with
      | error f =>
        refine .inl ⟨.unwritable path f, ?_⟩
        simp only [writeBelow, hmake, hwrite]
      | ok d'' =>
        obtain ⟨place, rfl, hlocate⟩ := Disk.write_ok hwrite
        refine .inr ⟨d', place, rfl, ?_, hlocate⟩
        simp only [writeBelow, hmake, hwrite]

theorem writeBelow_file (hmake : d.makeDirectories ((Path.parent? path).getD []) = (d', .ok ()))
    (hlocate : d'.locate path = .ok (.taken place (.file c))) (t : Text) :
    (writeBelow d path t).1 = d'.put place (.file (.text t)) := by
  simp only [writeBelow, hmake, Disk.write, hlocate]

theorem perform_missing (h : d.exists? step.path = .ok false) :
    perform d step = (writeBelow d step.path step.fresh).1 := by
  cases step with
  | save path content policy =>
    have hexists : d.exists? path = .ok false := h
    simp only [perform, save, hexists, withOutcome, Step.path, Step.fresh]
  | append path position content =>
    have hread : d.read path = .error .missing := Disk.read_missing.mpr h
    simp only [perform, append, hread, withOutcome, Step.path, Step.fresh]

/-- A guarded step leaves the disk alone, or it writes: anew if it found nothing, and else all
the lines of the text that it found. -/
theorem perform_cases (h : step.Guarded) :
    perform d step = d ∨ ∃ t, perform d step = (writeBelow d step.path t).1 ∧
      (d.exists? step.path = .ok false ∧ t = step.fresh ∨
        ∃ place existing, d.locate step.path = .ok (.taken place (.file (.text existing))) ∧
          (Position.lines existing).Sublist (Position.lines t)) := by
  by_cases hmissing : d.exists? step.path = .ok false
  · exact .inr ⟨step.fresh, perform_missing hmissing, .inl ⟨hmissing, rfl⟩⟩
  · cases step with
    | save path content policy =>
      refine .inl ?_
      simp only [perform, save]
      split
      · rfl
      · next hfalse => exact absurd hfalse hmissing
      · exact absurd rfl h
      · rfl
      · rfl
    | append path position content =>
      simp only [perform, append]
      split
      · next existing hread =>
        obtain ⟨place, hlocate⟩ := Disk.read_ok hread
        exact .inr ⟨_, rfl, .inr ⟨place, existing, hlocate,
          Position.lines_sublist_insert h content existing⟩⟩
      · next hnone => exact absurd (Disk.read_missing.mp hnone) hmissing
      · exact .inl rfl

theorem retained_of_keeps (hkeeps : Keeps d (perform d step))
    (hstrays : Strays d step.path place c) : c.Retained (.text step.fresh) := by
  obtain ⟨hmissing, d', hmake, hlocate⟩ := hstrays
  have hgrown := d.makeDirectories_grown ((Path.parent? step.path).getD [])
  rw [hmake] at hgrown
  have hthere := hgrown.noFile _ _ (Disk.locate_file hlocate)
  have hne : place ≠ [] := Disk.ne_nil_of_entry? (by rw [hthere]; exact nofun)
  obtain ⟨c', hc', hretained⟩ := hkeeps place c hthere
  rw [perform_missing hmissing, writeBelow_file hmake hlocate, Disk.entry?_put_self _ _ hne] at hc'
  obtain rfl : Content.text step.fresh = c' := Entry.file.inj (Option.some.inj hc')
  exact hretained

theorem keeps_perform (hguarded : step.Guarded)
    (hstrays : ∀ place c, Strays d step.path place c → c.Retained (.text step.fresh)) :
    Keeps d (perform d step) := by
  rcases perform_cases hguarded with hsame | ⟨t, hwrite, hfound⟩
  · rw [hsame]
    exact .refl d
  · rw [hwrite]
    have hgrown := d.makeDirectories_grown ((Path.parent? step.path).getD [])
    rcases writeBelow_cases d step.path t with ⟨_, hmade⟩ | ⟨d', place, hmake, hput, hlocate⟩
    · rw [hmade]
      exact keeps_of_grown hgrown
    · rw [hput]
      rw [hmake] at hgrown
      refine keeps_put hgrown fun c hc => ?_
      rcases hlocate with hfree | ⟨c', htaken⟩
      · rw [Disk.locate_free hfree] at hc
        cases hc
      · rw [Disk.locate_file htaken] at hc
        obtain rfl : c' = c := Entry.file.inj (Option.some.inj hc)
        rcases hfound with ⟨hmissing, rfl⟩ | ⟨found, existing, hlocate, hlines⟩
        · exact hstrays place c' ⟨hmissing, d', hmake, htaken⟩
        · -- The text was read where the path leads still.
          have hstill := (hgrown.locate_taken hlocate).symm.trans htaken
          obtain ⟨_, hentry⟩ := Spot.taken.inj (Except.ok.inj hstill)
          obtain rfl := Entry.file.inj hentry
          exact hlines

/-- What a guarded step loses, it loses to a path that strays. -/
theorem keeps_perform_iff (hguarded : step.Guarded) : Keeps d (perform d step) ↔
    ∀ place c, Strays d step.path place c → c.Retained (.text step.fresh) :=
  ⟨fun hkeeps _ _ => retained_of_keeps hkeeps, keeps_perform hguarded⟩

theorem lossless_of_steady (hguarded : ∀ step ∈ steps, step.Guarded) (h : Steady d steps) :
    Lossless d steps := by
  induction steps generalizing d with
  | nil =>
    intro before middle rest hsteps
    obtain ⟨hbefore, _⟩ := List.append_eq_nil_iff.mp hsteps.symm
    obtain ⟨rfl, rfl⟩ := List.append_eq_nil_iff.mp hbefore
    exact .refl d
  | cons step steps ih =>
    obtain ⟨hstray, hsteady⟩ := h
    have hrest := ih (fun s hs => hguarded s (List.mem_cons_of_mem _ hs)) hsteady
    have hstep := (keeps_perform_iff (hguarded step (List.mem_cons_self ..))).mpr hstray
    intro before middle rest hsteps
    cases before with
    | cons first before =>
      obtain ⟨rfl, hsteps'⟩ := List.cons.inj hsteps
      exact hrest before middle rest hsteps'
    | nil =>
      cases middle with
      | nil => exact .refl d
      | cons first middle =>
        obtain ⟨rfl, hsteps'⟩ := List.cons.inj hsteps
        exact hstep.trans (hrest [] middle rest hsteps')

theorem steady_of_lossless (hguarded : ∀ step ∈ steps, step.Guarded) (h : Lossless d steps) :
    Steady d steps := by
  induction steps generalizing d with
  | nil => trivial
  | cons step steps ih =>
    constructor
    · exact (keeps_perform_iff (hguarded step (List.mem_cons_self ..))).mp (h [] [step] steps rfl)
    · refine ih (fun s hs => hguarded s (List.mem_cons_of_mem _ hs)) ?_
      intro before middle rest hsteps
      refine h (step :: before) middle rest ?_
      rw [hsteps]
      rfl

/-- A run and each part of it keep all there is exactly if no step strays to a file with lines
that the step does not write. -/
theorem lossless_iff_steady (d : Disk) (steps : List Step)
    (hguarded : ∀ step ∈ steps, step.Guarded) : Lossless d steps ↔ Steady d steps :=
  ⟨steady_of_lossless hguarded, lossless_of_steady hguarded⟩

private def brink : Disk :=
  ⟨[(["work".toList], .directory),
    (["work".toList, "a.txt".toList], .file (.text "old\nlines".toList))], ["work".toList]⟩

private def detour : Step := .save "new/../a.txt".toList "x".toList .refuse

private theorem detour_guarded : ∀ step ∈ [detour], step.Guarded := by
  intro step hstep
  obtain rfl := List.mem_singleton.mp hstep
  exact nofun

/-- The path leads nowhere while there is no directory `new`, and so the file is overwritten. -/
theorem detour_not_lossless : ¬ Lossless brink [detour] := by
  rw [lossless_iff_steady brink [detour] detour_guarded]
  rintro ⟨hstray, _⟩
  have hlines := hstray ["work".toList, "a.txt".toList] (.text "old\nlines".toList)
    ⟨rfl, brink.put ["work".toList, "new".toList] .directory, by cbv, by cbv⟩
  exact absurd hlines (by decide)

theorem exists_loss : ¬ ∀ (d : Disk) (steps : List Step), (∀ step ∈ steps, step.Guarded) →
    Keeps d (after d steps) := by
  intro h
  obtain ⟨c, hc, hretained⟩ := h brink [detour] detour_guarded
    ["work".toList, "a.txt".toList] (.text "old\nlines".toList) rfl
  have hafter : Disk.entry? (after brink [detour]) ["work".toList, "a.txt".toList] =
      some (.file (.text "x".toList)) := by cbv
  obtain rfl : Content.text "x".toList = c :=
    Entry.file.inj (Option.some.inj (hafter.symm.trans hc))
  exact absurd hretained (by decide)

theorem isTree_writeBelow (htree : d.IsTree) (path : Path) (t : Text) :
    (writeBelow d path t).1.IsTree := by
  have hmade := htree.makeDirectories ((Path.parent? path).getD [])
  rcases writeBelow_cases d path t with ⟨_, hsame⟩ | ⟨d', place, hmake, hput, hlocate⟩
  · rwa [hsame]
  · rw [hput]
    rw [hmake] at hmade
    rcases hlocate with hfree | ⟨c, htaken⟩
    · exact hmade.put_free _ hfree
    · exact hmade.put_file _ (Disk.locate_file htaken)

theorem isTree_perform (htree : d.IsTree) (hguarded : step.Guarded) :
    (perform d step).IsTree := by
  rcases perform_cases hguarded with hsame | ⟨t, hwrite, _⟩
  · rwa [hsame]
  · rw [hwrite]
    exact isTree_writeBelow htree step.path t

/-- Only a path with `..` strays in a tree. -/
theorem not_strays_of_straight (htree : d.IsTree) (hup : ['.', '.'] ∉ Text.split '/' path) :
    ¬ Strays d path place c := by
  rintro ⟨hmissing, d', hmake, hlocate⟩
  have hgrown := d.makeDirectories_grown ((Path.parent? path).getD [])
  rw [hmake] at hgrown
  have hbefore := hgrown.locate_file htree hup hlocate
  rw [Disk.exists?, Disk.entryAt, hbefore] at hmissing
  cases hmissing

theorem steady_of_straight (htree : d.IsTree) (hguarded : ∀ step ∈ steps, step.Guarded)
    (hup : ∀ step ∈ steps, ['.', '.'] ∉ Text.split '/' step.path) : Steady d steps := by
  induction steps generalizing d with
  | nil => trivial
  | cons step steps ih =>
    refine ⟨fun place c hstrays => ?_, ?_⟩
    · exact absurd hstrays (not_strays_of_straight htree (hup step (List.mem_cons_self ..)))
    · exact ih (isTree_perform htree (hguarded step (List.mem_cons_self ..)))
        (fun s hs => hguarded s (List.mem_cons_of_mem _ hs))
        (fun s hs => hup s (List.mem_cons_of_mem _ hs))

theorem lossless_of_straight (htree : d.IsTree) (hguarded : ∀ step ∈ steps, step.Guarded)
    (hup : ∀ step ∈ steps, ['.', '.'] ∉ Text.split '/' step.path) : Lossless d steps :=
  lossless_of_steady hguarded (steady_of_straight htree hguarded hup)

end Output

end Scaffold
