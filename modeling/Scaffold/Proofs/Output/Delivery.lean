import Scaffold.Proofs.Output.Preservation
import Scaffold.Rendered

/-!
What it means that a rendered text has been delivered to a path, and that saving and appending do
it or fail without touching a file. Main statements: `effect_save`, `effect_append`.
-/

namespace Scaffold

/-- The path leads to a file with the text, at the place it led to before if it led anywhere. All
other files are as they were, and all directories are there still. -/
structure Disk.Wrote (d : Disk) (path : Path) (t : Text) (d' : Disk) (place : Place) : Prop where
  workingPlace : d'.workingPlace = d.workingPlace
  located : d'.locate path = .ok (.taken place (.file (.text t)))
  read : d'.read path = .ok t
  before : ∀ other e, d.locate path = .ok (.taken other e) → other = place
  files : ∀ other c, other ≠ place → (d'.entry? other = some (.file c) ↔
    d.entry? other = some (.file c))
  directories : ∀ other, d.entry? other = some .directory → d'.entry? other = some .directory

/-- What a file has that is to be inserted into: its text, or nothing if it cannot be found. -/
def Disk.Found (d : Disk) (path : Path) : Option Text → Prop
  | some t => d.read path = .ok t
  | none => d.read path = .error .missing

namespace Output

variable {d d' d'' : Disk} {path : Path} {place : Place} {t : Text} {α β ε ζ : Type}

theorem wrote_put (hg : Disk.Grown d d') (h : d'.locate path = .ok (.free place false) ∨
      ∃ c, d'.locate path = .ok (.taken place (.file c))) :
    d.Wrote path t (d'.put place (.file (.text t))) place := by
  have hplace := Disk.not_directory h
  have hlocate := Disk.locate_put (t := t) h
  constructor
  · exact hg.workingPlace
  · exact hlocate
  · exact Disk.read_of_locate hlocate
  · intro other e hbefore
    have hstill := hg.locate_taken hbefore
    rcases h with hfree | ⟨c, htaken⟩
    · rw [hfree] at hstill
      cases hstill
    · rw [htaken] at hstill
      exact (Spot.taken.inj (Except.ok.inj hstill)).1.symm
  · intro other c hother
    rw [d'.entry?_put_of_ne _ (Ne.symm hother)]
    exact ⟨hg.noFile other c, hg.kept other _⟩
  · intro other hdirectory
    have hkept := hg.kept other _ hdirectory
    have hother : place ≠ other := by
      rintro rfl
      exact hplace hkept
    rw [d'.entry?_put_of_ne _ hother, hkept]

/-- A failure leaves all files as they were, and a result comes with the disk it promises. -/
def Effect (d : Disk) (promised : α → Disk → Prop) : Disk × Except ε α → Prop
  | (d', .error _) => d.Grown d'
  | (d', .ok a) => promised a d'

theorem Effect.imp {promised wanted : α → Disk → Prop} {result : Disk × Except ε α}
    (h : Effect d promised result) (himp : ∀ a d', promised a d' → wanted a d') :
    Effect d wanted result := by
  obtain ⟨d', result⟩ := result
  cases result with
  | error e => exact h
  | ok a => exact himp a d' h

theorem Effect.map {promised : α → Disk → Prop} {wanted : β → Disk → Prop} {f : α → β}
    {result : Except ε α} (h : Effect d promised (d', result))
    (hf : ∀ a d', promised a d' → wanted (f a) d') : Effect d wanted (d', result.map f) := by
  cases result with
  | error e => exact h
  | ok a => exact hf a d' h

theorem Effect.mapError {promised : α → Disk → Prop} {f : ε → ζ} {result : Except ε α}
    (h : Effect d promised (d', result)) : Effect d promised (d', result.mapError f) := by
  cases result with
  | error e => exact h
  | ok a => exact h

theorem effect_writeBelow (d : Disk) (path : Path) (t : Text) :
    Effect d (fun _ d' => ∃ place, d.Wrote path t d' place) (writeBelow d path t) := by
  have hgrown := d.makeDirectories_grown ((Path.parent? path).getD [])
  rcases writeBelow_cases d path t with ⟨e, hfailed⟩ | ⟨d', place, hmake, hput, hlocate⟩
  · rw [hfailed]
    exact hgrown
  · rw [hmake] at hgrown
    rw [hput]
    exact ⟨place, wrote_put hgrown hlocate⟩

/-- What a rendered text brings about at a path, by the name that is told for it. -/
inductive Delivered (d : Disk) (path : Path) (policy : ExistingPolicy) (r : Rendered) :
    Outcome → Disk → Prop
  | created {d' : Disk} {place : Place} (hplain : r.append = none)
      (hmissing : d.exists? path = .ok false) (hwrote : d.Wrote path r.body d' place) :
      Delivered d path policy r .created d'
  | overwritten {d' : Disk} {place : Place} (hplain : r.append = none)
      (hpolicy : policy = .overwrite) (hpresent : d.exists? path = .ok true)
      (hwrote : d.Wrote path r.body d' place) : Delivered d path policy r .overwritten d'
  | skipped (hplain : r.append = none) (hpolicy : policy = .skip)
      (hpresent : d.exists? path = .ok true) : Delivered d path policy r .skipped d
  | appended {d' : Disk} {place : Place} {directive : AppendDirective} {existing : Option Text}
      (hdirective : r.append = some directive) (hfound : d.Found path existing)
      (hwrote : d.Wrote path (directive.position.insert existing r.body) d' place) :
      Delivered d path policy r .appended d'

variable {policy : ExistingPolicy} {r : Rendered}

theorem effect_withOutcome {o : Outcome}
    (h : ∀ d' place, d.Wrote path t d' place → Delivered d path policy r o d') :
    Effect d (Delivered d path policy r) (withOutcome o (writeBelow d path t)) := by
  refine (effect_writeBelow d path t).map fun _ d' hd' => ?_
  obtain ⟨place, hwrote⟩ := hd'
  exact h d' place hwrote

theorem effect_save (d : Disk) (path : Path) (policy : ExistingPolicy) (h : r.append = none) :
    Effect d (Delivered d path policy r) (save d path r.body policy) := by
  cases hexists : d.exists? path with
  | error f =>
    simp only [save, hexists]
    exact Disk.Grown.refl d
  | ok present =>
    cases present with
    | false =>
      simp only [save, hexists]
      exact effect_withOutcome fun _ _ hwrote => .created h hexists hwrote
    | true =>
      cases policy with
      | refuse =>
        simp only [save, hexists]
        exact Disk.Grown.refl d
      | overwrite =>
        simp only [save, hexists]
        exact effect_withOutcome fun _ _ hwrote => .overwritten h rfl hexists hwrote
      | skip =>
        simp only [save, hexists]
        exact Delivered.skipped h rfl hexists

theorem effect_append (d : Disk) (path : Path) (policy : ExistingPolicy)
    {directive : AppendDirective} (h : r.append = some directive) :
    Effect d (Delivered d path policy r) (append d path directive.position r.body) := by
  have hinsert (existing : Option Text) (hfound : d.Found path existing) :
      Effect d (Delivered d path policy r)
        (withOutcome .appended
          (writeBelow d path (directive.position.insert existing r.body))) :=
    effect_withOutcome fun _ _ hwrote => .appended h hfound hwrote
  simp only [append]
  split
  · next existing hread => exact hinsert (some existing) hread
  · next hread => exact hinsert none hread
  · exact Disk.Grown.refl d

end Output

end Scaffold
