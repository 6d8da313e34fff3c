import Scaffold.Text

/-!
Finite maps from names to values, kept in ascending order of the names, code point by code point.
Main statements: what a lookup finds after an insertion, and that insertion keeps the order.
-/

namespace Scaffold

abbrev Bindings (α : Type) := List (Text × α)

namespace Bindings

variable {α β : Type}

def get? (name : Text) : Bindings α → Option α
  | [] => none
  | (n, a) :: rest => if n = name then some a else get? name rest

def contains (name : Text) (b : Bindings α) : Bool := (get? name b).isSome

def names (b : Bindings α) : List Text := b.map Prod.fst

/-- Binds `name` at its place in the order, in the place of an earlier binding of the same name. -/
def insert (name : Text) (a : α) : Bindings α → Bindings α
  | [] => [(name, a)]
  | (n, x) :: rest =>
    if name < n then (name, a) :: (n, x) :: rest
    else if name = n then (name, a) :: rest
    else (n, x) :: insert name a rest

/-- Later pairs win over earlier ones with the same name. -/
def ofPairs (pairs : List (Text × α)) : Bindings α :=
  pairs.foldl (fun b p => insert p.1 p.2 b) []

def Ascending (b : Bindings α) : Prop := b.Pairwise (fun x y => x.1 < y.1)

theorem get?_insert_self (name : Text) (a : α) (b : Bindings α) :
    get? name (insert name a b) = some a := by
  induction b with
  | nil => simp [insert, get?]
  | cons p rest ih =>
    obtain ⟨n, x⟩ := p
    rw [insert]
    split
    · simp [get?]
    · split
      · simp [get?]
      · next h => simp [get?, Ne.symm h, ih]

theorem get?_insert_of_ne {name other : Text} (h : other ≠ name) (a : α) (b : Bindings α) :
    get? other (insert name a b) = get? other b := by
  induction b with
  | nil => simp [insert, get?, h.symm]
  | cons p rest ih =>
    obtain ⟨n, x⟩ := p
    rw [insert]
    split
    · simp [get?, h.symm]
    · split
      · next hn => subst hn; simp [get?, h.symm]
      · simp [get?, ih]

theorem mem_of_get? {name : Text} {a : α} {b : Bindings α} (h : get? name b = some a) :
    (name, a) ∈ b := by
  induction b with
  | nil => cases h
  | cons p b ih =>
    obtain ⟨n, x⟩ := p
    by_cases hn : n = name
    · rw [get?, if_pos hn] at h
      rw [hn, Option.some.inj h]
      exact List.mem_cons_self ..
    · rw [get?, if_neg hn] at h
      exact List.mem_cons_of_mem _ (ih h)

theorem mem_insert {name : Text} {a : α} {b : Bindings α} {p : Text × α}
    (h : p ∈ insert name a b) : p = (name, a) ∨ p ∈ b := by
  induction b with
  | nil => simpa [insert] using h
  | cons q rest ih =>
    obtain ⟨n, x⟩ := q
    rw [insert] at h
    split at h
    · simpa using h
    · split at h
      · rcases List.mem_cons.1 h with h | h
        · exact .inl h
        · exact .inr (List.mem_cons_of_mem _ h)
      · rcases List.mem_cons.1 h with h | h
        · exact .inr (h ▸ List.mem_cons_self ..)
        · exact (ih h).imp_right (List.mem_cons_of_mem _)

theorem insert_of_lt {b : Bindings α} {name : Text} (a : α) (h : ∀ p ∈ b, p.1 < name) :
    insert name a b = b ++ [(name, a)] := by
  induction b with
  | nil => rfl
  | cons p b ih =>
    obtain ⟨n, x⟩ := p
    have hlt : n < name := h (n, x) (List.mem_cons_self ..)
    have hge : ¬ name < n := List.lt_asymm hlt
    have hne : name ≠ n := fun heq => List.lt_irrefl n (heq ▸ hlt)
    rw [insert, if_neg hge, if_neg hne, ih fun q hq => h q (List.mem_cons_of_mem _ hq)]
    rfl

theorem ascending_insert (name : Text) (a : α) {b : Bindings α} (h : Ascending b) :
    Ascending (insert name a b) := by
  induction b with
  | nil => simp [insert, Ascending]
  | cons p rest ih =>
    obtain ⟨n, x⟩ := p
    have hrest := List.pairwise_cons.1 h
    rw [insert]
    split
    · next hlt =>
      refine List.pairwise_cons.2 ⟨fun q hq => ?_, h⟩
      rcases List.mem_cons.1 hq with rfl | hq
      · exact hlt
      · exact List.lt_trans hlt (hrest.1 q hq)
    · split
      · next heq => subst heq; exact List.pairwise_cons.2 hrest
      · next hlt hne =>
        refine List.pairwise_cons.2 ⟨fun q hq => ?_, ih hrest.2⟩
        rcases mem_insert hq with rfl | hq
        · exact Decidable.byContradiction fun hgt => hne (List.le_antisymm hgt hlt)
        · exact hrest.1 q hq

theorem ascending_ofPairs (pairs : List (Text × α)) : Ascending (ofPairs pairs) := by
  suffices h : ∀ b : Bindings α, Ascending b →
      Ascending (pairs.foldl (fun b p => insert p.1 p.2 b) b) from h [] List.Pairwise.nil
  induction pairs with
  | nil => exact fun _ h => h
  | cons p ps ih => exact fun b h => ih _ (ascending_insert p.1 p.2 h)

end Bindings

end Scaffold
