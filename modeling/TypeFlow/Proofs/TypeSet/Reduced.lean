import TypeFlow.Proofs.TypeSet.Within
import TypeFlow.TypeSet.Stem
/-!
# Sets reduced to one type

Coloring has one type for a set: a union becomes the stem of its leaves, or everything if they
have none (`reduced`). A set within another reduces to a type that refines what the other reduces
to (`reduced_mono`), so that sets within each other reduce to the same (`reduced_eq`).
-/

namespace TypeFlow

namespace TypeSet

variable {a b x : TypeSet}

/-- The one type that stands for a set. -/
def reduced : TypeSet → TypeSet
  | .anyOf ops => (commonStem ops).getD .univ
  | other => other

theorem reduced_eq_commonStem (hu : a ≠ .univ) (he : a ≠ .empty) :
    a.reduced = (commonStem a.leaves).getD .univ := by
  cases a <;> first | exact absurd rfl hu | exact absurd rfl he | rfl

theorem Proper.reduced (h : Proper x) : x.reduced = x := by
  cases x <;> first | exact h.elim | rfl

@[simp] theorem reduced_univ : univ.reduced = .univ := rfl

theorem leaves_ne_nil (ha : Canonical a) (he : a ≠ .empty) : a.leaves ≠ [] := fun h =>
  he (ha.leaves_eq_nil.1 h)

/-- Anything but the empty set reduces to everything or to a leaf above all its leaves. -/
theorem reduced_spec (ha : Canonical a) (he : a ≠ .empty) : a.reduced = .univ ∨
    Proper a.reduced ∧ a ≠ .univ ∧ ∀ x ∈ a.leaves, Refines x a.reduced := by
  by_cases hu : a = .univ
  · exact Or.inl (by rw [hu, reduced_univ])
  · rw [reduced_eq_commonStem hu he]
    cases hs : commonStem a.leaves with
    | none => exact Or.inl rfl
    | some s =>
      right
      have habove := refines_commonStem hs
      obtain ⟨x, hx⟩ := List.exists_mem_of_ne_nil _ (leaves_ne_nil ha he)
      exact ⟨(ha.proper hu hx).of_refines (habove x hx), hu, habove⟩

theorem reduced_ne_empty (ha : Canonical a) (he : a ≠ .empty) : a.reduced ≠ .empty := by
  rcases reduced_spec ha he with h | ⟨h, -⟩
  · rw [h]
    nofun
  · intro hempty
    rw [hempty] at h
    exact h

/-- Less reduces to a more special type. -/
theorem reduced_mono (ha : Canonical a) (hb : Canonical b) (he : a ≠ .empty) (h : Within a b) :
    b.reduced = .univ ∨ Refines a.reduced b.reduced := by
  have hbe : b ≠ .empty := by
    rintro rfl
    exact he (within_empty ha h)
  rcases reduced_spec hb hbe with hu | ⟨-, hbu, habove⟩
  · exact Or.inl hu
  · right
    obtain ⟨hau, hleaves⟩ := h.resolve_left hbu
    have hle : ∀ x ∈ a.leaves, Refines x b.reduced := by
      intro x hx
      obtain ⟨y, hy, hxy⟩ := (hleaves x hx).resolve_left hbu
      exact hxy.trans (habove y hy)
    obtain ⟨s, hs, hsb⟩ := commonStem_least (leaves_ne_nil ha he) hle
    rw [reduced_eq_commonStem hau he, hs]
    exact hsb

theorem eq_univ_of_refines (h : Refines .univ x) : x = .univ := by
  rcases h.eq_or_arged with h | ⟨b, z, h⟩
  · exact h.symm
  · cases h

/-- Sets within each other reduce to the same type. -/
theorem reduced_eq (ha : Canonical a) (hb : Canonical b) (hab : Within a b) (hba : Within b a) :
    a.reduced = b.reduced := by
  by_cases he : a = .empty
  · subst he
    rw [within_empty hb hba]
  · have hbe : b ≠ .empty := by
      rintro rfl
      exact he (within_empty ha hab)
    rcases reduced_mono ha hb he hab with hu | hr
    · rcases reduced_mono hb ha hbe hba with hu' | hr'
      · rw [hu, hu']
      · rw [hu] at hr'
        rw [hu, eq_univ_of_refines hr']
    · rcases reduced_mono hb ha hbe hba with hu' | hr'
      · rw [hu'] at hr
        rw [hu', eq_univ_of_refines hr]
      · exact hr.antisymm hr'

/-- What passes from leaves to those above them passes from a set to what it reduces to. -/
theorem Over.reduced {P : TypeSet → Prop} (hP : ∀ x y, P x → Refines x y → P y) (ha : Over P a)
    (he : a ≠ .empty) : a.reduced = .univ ∨ Proper a.reduced ∧ P a.reduced := by
  rcases reduced_spec ha.1 he with h | ⟨hproper, hu, habove⟩
  · exact Or.inl h
  · obtain ⟨x, hx⟩ := List.exists_mem_of_ne_nil _ (leaves_ne_nil ha.1 he)
    exact Or.inr ⟨hproper, hP x _ (ha.2 hu x hx) (habove x hx)⟩

end TypeSet

end TypeFlow
