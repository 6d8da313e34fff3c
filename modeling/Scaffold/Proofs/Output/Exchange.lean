import Scaffold.Proofs.Output.Anchor

/-!
Insertions at two keywords. As long as neither content brings the other keyword along, both
keywords keep their first lines and the order of the insertions does not show, adjacent lines
included. Only on the same side of the same line do the contents stand in the order in which they
came. Main statement: `insert_exchange`.
-/

namespace Scaffold.Position

/-- The side of a keyword's first line on which new lines go. -/
inductive Side where
  | above
  | below
  deriving DecidableEq, Repr

namespace Side

def position : Side → Text → Position
  | .above, keyword => .before keyword
  | .below, keyword => .after keyword

/-- A line with new ones on one side of it. -/
def around (line : Text) (added : List Text) : Side → List Text
  | .above => added ++ [line]
  | .below => line :: added

theorem mem_around {other line : Text} {added : List Text} {side : Side} :
    other ∈ side.around line added ↔ other = line ∨ other ∈ added := by
  cases side <;> simp [around, or_comm]

end Side

variable {t k₁ k₂ c₁ c₂ line line₁ line₂ keyword : Text} {side₁ side₂ : Side}
variable {above above₁ above₂ below below₁ below₂ between : List Text}

theorem lines_injective {s t : Text} (h : lines s = lines t) : s = t := by
  rw [← Text.join_split '\n' s, ← Text.join_split '\n' t]
  exact congrArg _ h

namespace Anchored

theorem firstAt (h : Anchored keyword t above line below) :
    FirstAt keyword (lines t) above.length :=
  linesBefore?_eq_some.mp h.linesBefore?_eq

theorem lines_side (h : Anchored keyword t above line below) (side : Side) (content : Text) :
    lines ((side.position keyword).insert (some t) content) =
      above ++ side.around line (lines content) ++ below := by
  cases side with
  | above => rw [Side.position, h.lines_before, Side.around]; simp
  | below => rw [Side.position, h.lines_after, Side.around]; simp

theorem order_of_append {rest : List Text} (habove : above₂ = above₁ ++ rest)
    (hrest : line₁ :: below₁ = rest ++ line₂ :: below₂) :
    (above₁ = above₂ ∧ line₁ = line₂ ∧ below₁ = below₂) ∨
      ∃ between, above₂ = above₁ ++ line₁ :: between ∧ below₁ = between ++ line₂ :: below₂ := by
  cases rest with
  | nil =>
    obtain ⟨hline, hbelow⟩ := List.cons.inj hrest
    exact .inl ⟨by rw [habove, List.append_nil], hline, hbelow⟩
  | cons first between =>
    obtain ⟨rfl, hbelow⟩ := List.cons.inj hrest
    exact .inr ⟨between, habove, hbelow⟩

theorem order (h₁ : Anchored k₁ t above₁ line₁ below₁) (h₂ : Anchored k₂ t above₂ line₂ below₂) :
    (above₁ = above₂ ∧ line₁ = line₂ ∧ below₁ = below₂) ∨
      (∃ between, above₂ = above₁ ++ line₁ :: between ∧ below₁ = between ++ line₂ :: below₂) ∨
      ∃ between, above₁ = above₂ ++ line₂ :: between ∧ below₂ = between ++ line₁ :: below₁ := by
  have hlines := h₁.lines_eq.symm.trans h₂.lines_eq
  rcases List.append_eq_append_iff.mp hlines with ⟨rest, habove, hrest⟩ | ⟨rest, habove, hrest⟩
  · exact (order_of_append habove hrest).imp_right .inl
  · rcases order_of_append habove hrest with ⟨rfl, rfl, rfl⟩ | hlower
    · exact .inl ⟨rfl, rfl, rfl⟩
    · exact .inr (.inr hlower)

/-- Above another line the new ones leave that line in its place, if they have not its keyword. -/
theorem insert_higher (h₁ : Anchored k₁ t above line₁ (between ++ line₂ :: below))
    (h₂ : Anchored k₂ t (above ++ line₁ :: between) line₂ below) (side : Side)
    (hfree : Text.contains k₂ c₁ = false) :
    Anchored k₂ ((side.position k₁).insert (some t) c₁)
      (above ++ side.around line₁ (lines c₁) ++ between) line₂ below := by
  refine ⟨?_, ?_, h₂.line_has⟩
  · rw [h₁.lines_side side c₁]
    simp
  · intro other hother
    have hcases : other ∈ above ++ line₁ :: between ∨ other ∈ lines c₁ := by
      simp only [List.mem_append, Side.mem_around, List.mem_cons] at hother ⊢
      grind
    rcases hcases with hother | hother
    · exact h₂.above_free other hother
    · exact free_of_mem_lines hfree hother

/-- Below its first line a keyword does not matter. -/
theorem insert_lower (h₁ : Anchored k₁ t above line₁ (between ++ line₂ :: below))
    (h₂ : Anchored k₂ t (above ++ line₁ :: between) line₂ below) (side : Side) (c₂ : Text) :
    Anchored k₁ ((side.position k₂).insert (some t) c₂)
      above line₁ (between ++ side.around line₂ (lines c₂) ++ below) := by
  refine ⟨?_, h₁.above_free, h₁.line_has⟩
  rw [h₂.lines_side side c₂]
  simp

theorem exchange_of_order (h₁ : Anchored k₁ t above line₁ (between ++ line₂ :: below))
    (h₂ : Anchored k₂ t (above ++ line₁ :: between) line₂ below) (side₁ side₂ : Side)
    (hfree : Text.contains k₂ c₁ = false) :
    (side₂.position k₂).insert (some ((side₁.position k₁).insert (some t) c₁)) c₂ =
      (side₁.position k₁).insert (some ((side₂.position k₂).insert (some t) c₂)) c₁ := by
  apply lines_injective
  rw [(h₁.insert_higher h₂ side₁ hfree).lines_side, (h₁.insert_lower h₂ side₂ c₂).lines_side]
  simp

/-- One on each side of the same line. -/
theorem exchange_of_sides (h₁ : Anchored k₁ t above line below)
    (h₂ : Anchored k₂ t above line below) (hfree : Text.contains k₂ c₁ = false) :
    (Position.after k₂).insert (some ((Position.before k₁).insert (some t) c₁)) c₂ =
      (Position.before k₁).insert (some ((Position.after k₂).insert (some t) c₂)) c₁ := by
  have hbefore := h₁.insert_before h₂ hfree
  have hafter := h₂.insert_after h₁ c₂
  apply lines_injective
  rw [hbefore.lines_after, hafter.lines_before]

end Anchored

theorem exists_anchored_of_infix (h : ∃ line ∈ lines t, keyword <:+: line) :
    ∃ above line below, Anchored keyword t above line below := by
  obtain ⟨line, hmem, hinfix⟩ := h
  exact exists_anchored ⟨line, hmem, Text.contains_iff.mpr hinfix⟩

/-- Two insertions at keywords that the text has, neither of which brings the other's keyword,
can be made in either order, unless they are for the same side of the same line. -/
theorem insert_exchange (hline₁ : ∃ line ∈ lines t, k₁ <:+: line)
    (hline₂ : ∃ line ∈ lines t, k₂ <:+: line) (hfree₁ : ¬ k₂ <:+: c₁) (hfree₂ : ¬ k₁ <:+: c₂)
    (hapart : ¬ (side₁ = side₂ ∧ ∃ i, FirstAt k₁ (lines t) i ∧ FirstAt k₂ (lines t) i)) :
    (side₂.position k₂).insert (some ((side₁.position k₁).insert (some t) c₁)) c₂ =
      (side₁.position k₁).insert (some ((side₂.position k₂).insert (some t) c₂)) c₁ := by
  rw [← Text.contains_iff, Bool.not_eq_true] at hfree₁ hfree₂
  obtain ⟨above₁, line₁, below₁, h₁⟩ := exists_anchored_of_infix hline₁
  obtain ⟨above₂, line₂, below₂, h₂⟩ := exists_anchored_of_infix hline₂
  rcases h₁.order h₂ with ⟨rfl, rfl, rfl⟩ | ⟨between, rfl, rfl⟩ | ⟨between, rfl, rfl⟩
  · have hsides : side₁ ≠ side₂ := by
      intro heq
      exact hapart ⟨heq, _, h₁.firstAt, h₂.firstAt⟩
    cases side₁ <;> cases side₂
    · exact absurd rfl hsides
    · exact h₁.exchange_of_sides h₂ hfree₁
    · exact (h₂.exchange_of_sides h₁ hfree₂).symm
    · exact absurd rfl hsides
  · exact h₁.exchange_of_order h₂ side₁ side₂ hfree₁
  · exact (h₂.exchange_of_order h₁ side₂ side₁ hfree₂).symm

private def outline : Text := "begin\n# routes\n# tasks\nend".toList

/-- Below one line and above the next one: both go into the same gap. -/
theorem insert_exchange_adjacent :
    ((∃ line ∈ lines outline, "routes".toList <:+: line) ∧
      (∃ line ∈ lines outline, "tasks".toList <:+: line) ∧
      ¬ "tasks".toList <:+: "more\nroutes".toList ∧ ¬ "routes".toList <:+: "clean".toList ∧
      ¬ (Side.below = Side.above ∧ ∃ i, FirstAt "routes".toList (lines outline) i ∧
        FirstAt "tasks".toList (lines outline) i)) ∧
      (Side.above.position "tasks".toList).insert
          (some ((Side.below.position "routes".toList).insert (some outline)
            "more\nroutes".toList)) "clean".toList =
        (Side.below.position "routes".toList).insert
          (some ((Side.above.position "tasks".toList).insert (some outline) "clean".toList))
          "more\nroutes".toList := by
  have hroutes : ∃ line ∈ lines outline, "routes".toList <:+: line := by
    simp only [← Text.contains_iff]
    decide
  have htasks : ∃ line ∈ lines outline, "tasks".toList <:+: line := by
    simp only [← Text.contains_iff]
    decide
  have hmore : ¬ "tasks".toList <:+: "more\nroutes".toList := by
    rw [← Text.contains_iff]
    decide
  have hclean : ¬ "routes".toList <:+: "clean".toList := by
    rw [← Text.contains_iff]
    decide
  have hapart : ¬ (Side.below = Side.above ∧ ∃ i, FirstAt "routes".toList (lines outline) i ∧
      FirstAt "tasks".toList (lines outline) i) := by
    rintro ⟨hside, -⟩
    cases hside
  exact ⟨⟨hroutes, htasks, hmore, hclean, hapart⟩,
    insert_exchange hroutes htasks hmore hclean hapart⟩

end Scaffold.Position
