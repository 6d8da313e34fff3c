import Scaffold.Proofs.Data.Valid
import Scaffold.Yaml.Document

/-!
What YAML texts describe are values that a document can describe (`isValid_of_ofText?`).
-/

namespace Scaffold.Yaml

open Data

theorem isValid_of_float? {t : Text} {x : Binary64} (h : float? t = some x) :
    IsValid (.ofFloat x) := by
  rw [float?] at h
  split at h
  · cases h
  split at h
  · cases h
    trivial
  split at h
  · cases h
    trivial
  split at h
  · cases h
    trivial
  split at h
  · next negative m q hread =>
    cases h
    obtain ⟨d, _, hd⟩ := Option.map_eq_some_iff.mp hread
    exact hd ▸ isValid_ofDecimal d
  · cases h

theorem isValid_of_dataOfInt? {n : Int} {d : Data} (h : dataOfInt? n = some d) : IsValid d := by
  rw [dataOfInt?] at h
  split at h
  · next hn =>
    cases h
    exact hn
  · cases h

theorem isValid_of_plainData? {t : Text} {d : Data} (h : plainData? t = some d) : IsValid d := by
  rw [plainData?] at h
  split at h
  · cases h
    trivial
  split at h
  · cases h
    trivial
  split at h
  · exact isValid_of_dataOfInt? h
  split at h
  · cases h
    trivial
  split at h
  · next hx =>
    cases h
    exact isValid_of_float? hx
  · cases h
    trivial

theorem isValid_of_scalarData? {tag : Option Text} {isPlain : Bool} {t : Text} {d : Data}
    (h : scalarData? tag isPlain t = some d) : IsValid d := by
  cases tag with
  | none =>
    rw [scalarData?] at h
    split at h
    · exact isValid_of_plainData? h
    · cases h
      trivial
  | some tag =>
    rw [scalarData?] at h
    split at h
    · cases h
    split at h
    · obtain ⟨b, _, rfl⟩ := Option.map_eq_some_iff.mp h
      trivial
    split at h
    · obtain ⟨n, _, hn⟩ := Option.bind_eq_some_iff.mp h
      exact isValid_of_dataOfInt? hn
    split at h
    · obtain ⟨x, hx, rfl⟩ := Option.map_eq_some_iff.mp h
      exact isValid_of_float? hx
    split at h
    · split at h
      · cases h
        trivial
      · cases h
    · cases h
      trivial

namespace Node

/-! ## Readings -/

/-- Whatever a reading yields has a property. -/
def Yields {α : Type} (r : Reading α) (P : α → Prop) : Prop :=
  ∀ s a s', r s = some (a, s') → P a

section Yields

variable {α β : Type} {P : α → Prop} {Q : β → Prop}

theorem yields_pure {a : α} (h : P a) : Yields (pure a) P := by
  rintro s b s' ⟨⟩
  exact h

theorem yields_failure : Yields (failure : Reading α) P := by
  rintro s a s' ⟨⟩

theorem yields_lift {o : Option α} (h : ∀ a, o = some a → P a) : Yields (StateT.lift o) P := by
  intro s a s' hrun
  cases o with
  | none => cases hrun
  | some b =>
    cases hrun
    exact h a rfl

theorem yields_bind {r : Reading α} {f : α → Reading β} (hr : Yields r P)
    (hf : ∀ a, P a → Yields (f a) Q) : Yields (r >>= f) Q := by
  intro s b s' h
  change (r s).bind (fun p => f p.1 p.2) = some (b, s') at h
  obtain ⟨⟨a, s1⟩, ha, hb⟩ := Option.bind_eq_some_iff.mp h
  exact hf a (hr s a s1 ha) s1 b s' hb

/-- A reading of which nothing is known. -/
theorem yields_true (r : Reading α) : Yields r (fun _ => True) := fun _ _ _ _ => trivial

theorem yields_mapM {f : β → Reading α} (hf : ∀ b, Yields (f b) P) (bs : List β) :
    Yields (bs.mapM f) (fun as => ∀ a ∈ as, P a) := by
  induction bs with
  | nil => exact yields_pure (by simp)
  | cons b bs ih =>
    rw [List.mapM_cons]
    exact yields_bind (hf b) fun a ha => yields_bind ih fun as has =>
      yields_pure (List.forall_mem_cons.mpr ⟨ha, has⟩)

theorem yields_foldlM {f : α → β → Reading α} (hf : ∀ a b, P a → Yields (f a b) P) (bs : List β)
    {a : α} (ha : P a) : Yields (bs.foldlM f a) P := by
  induction bs generalizing a with
  | nil => exact yields_pure ha
  | cons b bs ih =>
    rw [List.foldlM_cons]
    exact yields_bind (hf a b ha) fun _ => ih

end Yields

/-! ## Nodes -/

variable (targets : List (Nat × Node Nat))

theorem yields_data (depth : Nat) (n : Node Nat) : Yields (data targets depth n) IsValid := by
  induction depth generalizing n with
  | zero =>
    rw [data]
    refine yields_bind (yields_true _) fun m _ => ?_
    split
    · exact yields_lift fun d => isValid_of_scalarData?
    · exact yields_failure
  | succ depth ih =>
    rw [data]
    refine yields_bind (yields_true _) fun m _ => ?_
    split
    · exact yields_lift fun d => isValid_of_scalarData?
    · split
      · exact yields_failure
      · exact yields_bind (yields_mapM ih _) fun items hitems => yields_pure (areValid_iff.mpr hitems)
    · split
      · exact yields_failure
      · refine yields_bind (yields_foldlM (P := fun fields => IsValid (.object fields)) ?_ _ ?_)
          fun fields hfields => yields_pure hfields
        · exact fun fields p hfields => yields_bind (yields_true _) fun name _ =>
            yields_bind (ih p.2) fun d hd => yields_pure (isValid_insert name hfields hd)
        · exact ⟨List.Pairwise.nil, trivial⟩
    · exact yields_failure

theorem isValid_of_toData? {n : Node Text} {d : Data} (h : toData? n = some d) : IsValid d := by
  rw [toData?] at h
  obtain ⟨⟨m, seen⟩, _, h⟩ := Option.bind_eq_some_iff.mp h
  obtain ⟨⟨a, left⟩, hrun, h⟩ := Option.bind_eq_some_iff.mp h
  cases h
  exact yields_data _ _ _ _ _ _ hrun

end Node

/-- What a YAML text describes. -/
theorem isValid_of_ofText? {t : Text} {d : Data} (h : ofText? t = some d) : IsValid d := by
  rw [ofText?] at h
  obtain ⟨ns, _, h⟩ := Option.bind_eq_some_iff.mp h
  split at h
  · cases h
    trivial
  · exact Node.isValid_of_toData? h
  · cases h

end Scaffold.Yaml
