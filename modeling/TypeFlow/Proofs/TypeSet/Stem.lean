import TypeFlow.Proofs.TypeSet.Canonical
/-!
# Common stems as least upper bounds

The common stem of leaves is the least leaf above them all, in the order of refinement
(`LeastAbove`), and there is none exactly if there is no leaf above them all
(`commonStem_eq_none_iff`). Being least above a list depends on its members alone, so that neither
order nor repetition matters to the stem, and more leaves have a stem further up or none
(`commonStem_least_upper_bound`).
-/

namespace TypeFlow

namespace TypeSet

variable {s t x : TypeSet} {xs ys : List TypeSet}

/-- A tree above all of a list and below every other such tree. -/
structure LeastAbove (xs : List TypeSet) (s : TypeSet) : Prop where
  above : ∀ x ∈ xs, Refines x s
  least : ∀ w, (∀ x ∈ xs, Refines x w) → Refines s w

namespace LeastAbove

theorem congr (h : LeastAbove xs s) (hmem : ∀ x, x ∈ ys ↔ x ∈ xs) : LeastAbove ys s where
  above x hx := h.above x ((hmem x).1 hx)
  least w hw := h.least w fun x hx => hw x ((hmem x).2 hx)

theorem unique (hs : LeastAbove xs s) (ht : LeastAbove xs t) : s = t :=
  (hs.least t ht.above).antisymm (ht.least s hs.above)

/-- A tree above proper leaves is a proper leaf. -/
theorem proper (h : LeastAbove xs s) (hne : xs ≠ []) (hxs : ∀ x ∈ xs, Proper x) : Proper s := by
  obtain ⟨x, hx⟩ := List.exists_mem_of_ne_nil xs hne
  exact (hxs x hx).of_refines (h.above x hx)

end LeastAbove

/-! ## The stem of a list -/

theorem leastAbove_of_commonStem (hs : commonStem xs = some s) : LeastAbove xs s where
  above := refines_commonStem hs
  least w hw := by
    have hne : xs ≠ [] := by
      rintro rfl
      cases hs
    obtain ⟨s', hs', hrefines⟩ := commonStem_least hne hw
    obtain rfl : s = s' := Option.some.inj (hs.symm.trans hs')
    exact hrefines

theorem commonStem_eq_some_iff (hne : xs ≠ []) : commonStem xs = some s ↔ LeastAbove xs s := by
  refine ⟨leastAbove_of_commonStem, fun h => ?_⟩
  obtain ⟨s', hs', -⟩ := commonStem_least hne h.above
  rw [hs', (leastAbove_of_commonStem hs').unique h]

theorem commonStem_eq_none_iff (hne : xs ≠ []) :
    commonStem xs = none ↔ ∀ w, ¬ ∀ x ∈ xs, Refines x w := by
  constructor
  · intro hnone w hw
    obtain ⟨s, hs, -⟩ := commonStem_least hne hw
    rw [hnone] at hs
    cases hs
  · intro h
    rw [Option.eq_none_iff_forall_ne_some]
    intro s hs
    exact h s (refines_commonStem hs)

/-- Lists with the same members have the same stem. -/
theorem commonStem_congr (hne : xs ≠ []) (hmem : ∀ x, x ∈ ys ↔ x ∈ xs) :
    commonStem ys = commonStem xs := by
  have hne' : ys ≠ [] := by
    rintro rfl
    exact hne (List.eq_nil_iff_forall_not_mem.2 fun x hx => List.not_mem_nil ((hmem x).2 hx))
  refine Option.ext fun s => ?_
  rw [commonStem_eq_some_iff hne', commonStem_eq_some_iff hne]
  exact ⟨fun h => h.congr fun x => (hmem x).symm, fun h => h.congr hmem⟩

/-- A list of leaves that pass the check has a stem exactly if some leaf lies above them all. The
stem is then such a leaf too, the least above them. It is the same for every list of the same
members, and for a list with more members it lies further up, if there is one. -/
theorem commonStem_least_upper_bound (hne : xs ≠ [])
    (hxs : ∀ x ∈ xs, x.isLeaf ∧ x.check = .ok ()) :
    ((∃ s, commonStem xs = some s) ↔ ∃ w, w.isLeaf ∧ ∀ x ∈ xs, Refines x w) ∧
    (∀ s, commonStem xs = some s → (s.isLeaf ∧ s.check = .ok ()) ∧ LeastAbove xs s) ∧
    (∀ ys, (∀ x, x ∈ ys ↔ x ∈ xs) → commonStem ys = commonStem xs) ∧
    (∀ ys, xs ⊆ ys → commonStem ys = none ∨
      ∃ s t, commonStem xs = some s ∧ commonStem ys = some t ∧ Refines s t) := by
  have hproper : ∀ s, commonStem xs = some s → s.isLeaf ∧ s.check = .ok () := fun s hs =>
    proper_iff.1 ((leastAbove_of_commonStem hs).proper hne fun x hx => proper_iff.2 (hxs x hx))
  refine ⟨⟨?_, ?_⟩, fun s hs => ⟨hproper s hs, leastAbove_of_commonStem hs⟩,
    fun ys => commonStem_congr hne, fun ys hsub => ?_⟩
  · rintro ⟨s, hs⟩
    exact ⟨s, (hproper s hs).1, refines_commonStem hs⟩
  · rintro ⟨w, -, hw⟩
    obtain ⟨s, hs, -⟩ := commonStem_least hne hw
    exact ⟨s, hs⟩
  · cases ht : commonStem ys with
    | none => exact Or.inl rfl
    | some t =>
      obtain ⟨s, hs, hst⟩ :=
        commonStem_of_below hne (fun x hx => ⟨x, hsub hx, .refl x⟩) ht
      exact Or.inr ⟨s, t, hs, rfl, hst⟩

/-- Two lists of lists have a list of lists as their stem, in any order and however often they are
listed. With a list of sets the stem is a bare list, and with a number there is none. -/
theorem commonStem_least_upper_bound_nested :
    let xs : List TypeSet :=
      [.arged .list (.arged .list (.base .int)), .arged .list (.arged .list (.base .string))]
    let ys : List TypeSet := .arged .list (.arged .set (.base .int)) :: xs.reverse ++ xs
    (xs ≠ [] ∧ ∀ x ∈ xs, x.isLeaf ∧ x.check = .ok ()) ∧
    commonStem xs = some (.arged .list (.base .list)) ∧
    LeastAbove xs (.arged .list (.base .list)) ∧
    commonStem (xs.reverse ++ xs) = commonStem xs ∧
    commonStem ys = some (.base .list) ∧ Refines (.arged .list (.base .list)) (.base .list) ∧
    commonStem (.base .int :: ys) = none := by
  intro xs ys
  have hne : xs ≠ [] := nofun
  have hxs : ∀ x ∈ xs, x.isLeaf ∧ x.check = .ok () := by decide
  obtain ⟨-, hleast, hsame, hmore⟩ := commonStem_least_upper_bound hne hxs
  have hstem : commonStem xs = some (.arged .list (.base .list)) := by decide
  have hys : commonStem ys = some (.base .list) := by decide
  refine ⟨⟨hne, hxs⟩, hstem, (hleast _ hstem).2, hsame _ fun x => ?_, hys, ?_, by decide⟩
  · rw [List.mem_append, List.mem_reverse, or_self]
  · obtain hnone | ⟨s, t, hs, ht, hst⟩ := hmore ys (by simp [ys])
    · cases hys.symm.trans hnone
    · rwa [Option.some.inj (hstem.symm.trans hs), Option.some.inj (hys.symm.trans ht)]

end TypeSet

end TypeFlow
