import TypeFlow.TypeSet.Algebra
import TypeFlow.TypeSet.Stem
/-!
# Refinement of leaves

`Refines x y` says that the leaf `x` is at least as special as `y`: a container with an argument
refines the bare container, and it refines the same container with an argument that its own
refines. What lies above one leaf is a chain (`Refines.chain`).

Two comparable leaves meet in the more special one (`leafMeet_eq_some`), and the common stem of
leaves is the least leaf above them all (`refines_commonStem`, `commonStem_least`).
-/

namespace TypeFlow

namespace TypeSet

/-- The first leaf is at least as special as the second. -/
inductive Refines : TypeSet → TypeSet → Prop
  | refl (x : TypeSet) : Refines x x
  | bare (b : BaseType) (x : TypeSet) : Refines (.arged b x) (.base b)
  | arg (b : BaseType) {x y : TypeSet} (h : Refines x y) : Refines (.arged b x) (.arged b y)

variable {b : BaseType} {x y z w : TypeSet}

/-! ## The order -/

theorem refines_base_iff : Refines x (.base b) ↔ x = .base b ∨ ∃ y, x = .arged b y := by
  constructor
  · rintro (_ | _ | _)
    · exact Or.inl rfl
    · exact Or.inr ⟨_, rfl⟩
  · rintro (rfl | ⟨y, rfl⟩)
    · exact .refl _
    · exact .bare b y

theorem refines_arged_iff : Refines x (.arged b y) ↔ ∃ z, x = .arged b z ∧ Refines z y := by
  constructor
  · rintro (_ | _ | ⟨_, h⟩)
    · exact ⟨y, rfl, .refl y⟩
    · exact ⟨_, rfl, h⟩
  · rintro ⟨z, rfl, h⟩
    exact .arg b h

theorem arged_refines_iff :
    Refines (.arged b x) y ↔ y = .base b ∨ ∃ z, y = .arged b z ∧ Refines x z := by
  constructor
  · rintro (_ | _ | ⟨_, h⟩)
    · exact Or.inr ⟨x, rfl, .refl x⟩
    · exact Or.inl rfl
    · exact Or.inr ⟨_, rfl, h⟩
  · rintro (rfl | ⟨z, rfl, h⟩)
    · exact .bare b x
    · exact .arg b h

/-- Only a container with an argument refines anything but itself. -/
theorem Refines.eq_or_arged (h : Refines x y) : x = y ∨ ∃ b z, x = .arged b z := by
  cases h with
  | refl => exact Or.inl rfl
  | bare b z => exact Or.inr ⟨b, z, rfl⟩
  | arg b => exact Or.inr ⟨b, _, rfl⟩

theorem Refines.trans (hxy : Refines x y) (hyz : Refines y z) : Refines x z := by
  induction hxy generalizing z with
  | refl => exact hyz
  | bare b x =>
    obtain rfl : TypeSet.base b = z := by cases hyz; rfl
    exact .bare b x
  | arg b hxy ih =>
    rcases arged_refines_iff.1 hyz with rfl | ⟨w, rfl, hyw⟩
    · exact .bare b _
    · exact .arg b (ih hyw)

theorem Refines.antisymm (hxy : Refines x y) (hyx : Refines y x) : x = y := by
  induction hxy with
  | refl => rfl
  | bare b x => cases hyx
  | arg b _ ih =>
    obtain ⟨w, hw, hyx⟩ := refines_arged_iff.1 hyx
    obtain ⟨-, rfl⟩ := TypeSet.arged.inj hw
    rw [ih hyx]

/-- Of two leaves above one, one lies above the other. -/
theorem Refines.chain (hy : Refines x y) (hz : Refines x z) : Refines y z ∨ Refines z y := by
  induction hy generalizing z with
  | refl => exact Or.inl hz
  | bare b x =>
    rcases arged_refines_iff.1 hz with rfl | ⟨w, rfl, -⟩
    · exact Or.inl (.refl _)
    · exact Or.inr (.bare b w)
  | arg b _ ih =>
    rcases arged_refines_iff.1 hz with rfl | ⟨w, rfl, hw⟩
    · exact Or.inl (.bare b _)
    · exact (ih hw).imp (.arg b) (.arg b)

/-! ## Meets -/

theorem refines_of_leafMeet (h : leafMeet x y = some z) :
    (z = x ∧ Refines x y) ∨ (z = y ∧ Refines y x) := by
  fun_induction leafMeet x y generalizing z with
  | case1 x b y ih =>
    obtain ⟨w, hw, rfl⟩ := Option.map_eq_some_iff.1 h
    rcases ih hw with ⟨rfl, hr⟩ | ⟨rfl, hr⟩
    · exact Or.inl ⟨rfl, .arg b hr⟩
    · exact Or.inr ⟨rfl, .arg b hr⟩
  | case3 b y =>
    obtain rfl := Option.some.inj h
    exact Or.inr ⟨rfl, .bare b y⟩
  | case5 x b =>
    obtain rfl := Option.some.inj h
    exact Or.inl ⟨rfl, .bare b x⟩
  | case7 y =>
    obtain rfl := Option.some.inj h
    exact Or.inl ⟨rfl, .refl y⟩
  | case2 | case4 | case6 | case8 => cases h

theorem leafMeet_self : ∀ x : TypeSet, leafMeet x x = some x
  | .arged b x => by simp [leafMeet, leafMeet_self x]
  | .univ | .empty | .base _ | .cls _ | .anyOf _ => by simp [leafMeet]

/-- Comparable leaves meet in the more special of them, in either order. -/
theorem leafMeet_of_refines (h : Refines x y) : leafMeet x y = some x ∧ leafMeet y x = some x := by
  induction h with
  | refl x => exact ⟨leafMeet_self x, leafMeet_self x⟩
  | bare b x => simp [leafMeet]
  | arg b _ ih => simp [leafMeet, ih]

theorem leafMeet_eq_some :
    leafMeet x y = some z ↔ (z = x ∧ Refines x y) ∨ (z = y ∧ Refines y x) := by
  refine ⟨refines_of_leafMeet, ?_⟩
  rintro (⟨rfl, h⟩ | ⟨rfl, h⟩)
  · exact (leafMeet_of_refines h).1
  · exact (leafMeet_of_refines h).2

/-- A leaf refines another exactly if it is their meet. -/
theorem refines_iff_leafMeet : Refines x y ↔ leafMeet x y = some x := by
  rw [leafMeet_eq_some]
  constructor
  · exact fun h => Or.inl ⟨rfl, h⟩
  · rintro (⟨-, h⟩ | ⟨rfl, h⟩) <;> exact h

instance : Decidable (Refines x y) := decidable_of_iff _ refines_iff_leafMeet.symm

theorem mem_meets {xs ys : List TypeSet} : z ∈ meets xs ys ↔
    (z ∈ xs ∧ ∃ y ∈ ys, Refines z y) ∨ (z ∈ ys ∧ ∃ x ∈ xs, Refines z x) := by
  simp only [meets, List.mem_flatMap, List.mem_filterMap, leafMeet_eq_some]
  constructor
  · rintro ⟨x, hx, y, hy, ⟨rfl, h⟩ | ⟨rfl, h⟩⟩
    · exact Or.inl ⟨hx, y, hy, h⟩
    · exact Or.inr ⟨hy, x, hx, h⟩
  · rintro (⟨hz, y, hy, h⟩ | ⟨hz, x, hx, h⟩)
    · exact ⟨z, hz, y, hy, Or.inl ⟨rfl, h⟩⟩
    · exact ⟨x, hx, z, hz, Or.inr ⟨rfl, h⟩⟩

/-! ## Stems -/

/-- Both leaves refine their stem. -/
theorem refines_leafStem (h : leafStem x y = some z) : Refines x z ∧ Refines y z := by
  fun_induction leafStem x y generalizing z with
  | case1 x b y s hs ih =>
    obtain rfl := Option.some.inj h
    exact ⟨.arg b (ih hs).1, .arg b (ih hs).2⟩
  | case2 x b y hs =>
    obtain rfl := Option.some.inj h
    exact ⟨.bare b x, .bare b y⟩
  | case4 b y =>
    obtain rfl := Option.some.inj h
    exact ⟨.refl _, .bare b y⟩
  | case6 x b =>
    obtain rfl := Option.some.inj h
    exact ⟨.bare b x, .refl _⟩
  | case8 y =>
    obtain rfl := Option.some.inj h
    exact ⟨.refl y, .refl y⟩
  | case3 | case5 | case7 | case9 => cases h

theorem leafStem_self : ∀ x : TypeSet, leafStem x x = some x
  | .arged b x => by simp [leafStem, leafStem_self x]
  | .univ | .empty | .base _ | .cls _ | .anyOf _ => by simp [leafStem]

theorem leafStem_of_refines (h : Refines y x) : leafStem x y = some x := by
  induction h with
  | refl x => exact leafStem_self x
  | bare b x => simp [leafStem]
  | arg b _ ih => simp [leafStem, ih]

/-- Two leaves below a third have a stem, and it refines the third. -/
theorem leafStem_least (hx : Refines x w) (hy : Refines y w) :
    ∃ z, leafStem x y = some z ∧ Refines z w := by
  induction hx generalizing y with
  | refl x => exact ⟨x, leafStem_of_refines hy, .refl x⟩
  | bare b x =>
    rcases refines_base_iff.1 hy with rfl | ⟨v, rfl⟩
    · exact ⟨.base b, by simp [leafStem], .refl _⟩
    · cases hs : leafStem x v with
      | none => exact ⟨.base b, by simp [leafStem, hs], .refl _⟩
      | some s => exact ⟨.arged b s, by simp [leafStem, hs], .bare b s⟩
  | arg b hx ih =>
    obtain ⟨v, rfl, hv⟩ := refines_arged_iff.1 hy
    obtain ⟨s, hs, hsw⟩ := ih hv
    exact ⟨.arged b s, by simp [leafStem, hs], .arg b hsw⟩

theorem refines_foldlM_leafStem : ∀ (xs : List TypeSet) {x z : TypeSet},
    xs.foldlM leafStem x = some z → ∀ y ∈ x :: xs, Refines y z
  | [], x, z, h, y, hy => by
    obtain rfl : x = z := by simpa using h
    rw [List.mem_singleton.1 hy]
    exact .refl x
  | x' :: xs, x, z, h, y, hy => by
    obtain ⟨s, hs, h⟩ : ∃ s, leafStem x x' = some s ∧ xs.foldlM leafStem s = some z := by
      simpa [List.foldlM_cons, Option.bind_eq_some_iff] using h
    have hz := refines_foldlM_leafStem xs h
    have hsz : Refines s z := hz s List.mem_cons_self
    rcases List.mem_cons.1 hy with rfl | hy
    · exact (refines_leafStem hs).1.trans hsz
    · rcases List.mem_cons.1 hy with rfl | hy
      · exact (refines_leafStem hs).2.trans hsz
      · exact hz y (List.mem_cons_of_mem _ hy)

theorem foldlM_leafStem_least : ∀ (xs : List TypeSet) {x : TypeSet},
    (∀ y ∈ x :: xs, Refines y w) → ∃ z, xs.foldlM leafStem x = some z ∧ Refines z w
  | [], x, h => ⟨x, rfl, h x List.mem_cons_self⟩
  | x' :: xs, x, h => by
    obtain ⟨s, hs, hsw⟩ := leafStem_least (h x (by simp)) (h x' (by simp))
    obtain ⟨z, hz, hzw⟩ : ∃ z, xs.foldlM leafStem s = some z ∧ Refines z w := by
      refine foldlM_leafStem_least xs fun y hy => ?_
      rcases List.mem_cons.1 hy with rfl | hy
      · exact hsw
      · exact h y (by simp [hy])
    exact ⟨z, by simp [List.foldlM_cons, hs, hz], hzw⟩

/-- Every leaf of a list refines the common stem. -/
theorem refines_commonStem {xs : List TypeSet} (h : commonStem xs = some z) :
    ∀ x ∈ xs, Refines x z := by
  cases xs with
  | nil => cases h
  | cons x xs => exact refines_foldlM_leafStem xs h

/-- Leaves below one leaf have a common stem, and it refines that leaf. -/
theorem commonStem_least {xs : List TypeSet} (hne : xs ≠ []) (h : ∀ x ∈ xs, Refines x w) :
    ∃ z, commonStem xs = some z ∧ Refines z w := by
  cases xs with
  | nil => exact absurd rfl hne
  | cons x xs => exact foldlM_leafStem_least xs h

/-- Leaves below those of a list with a common stem have one too, and it lies below that stem. -/
theorem commonStem_of_below {xs ys : List TypeSet} (hne : xs ≠ [])
    (h : ∀ x ∈ xs, ∃ y ∈ ys, Refines x y) (hw : commonStem ys = some w) :
    ∃ z, commonStem xs = some z ∧ Refines z w := by
  refine commonStem_least hne fun x hx => ?_
  obtain ⟨y, hy, hxy⟩ := h x hx
  exact hxy.trans (refines_commonStem hw y hy)

end TypeSet

end TypeFlow
