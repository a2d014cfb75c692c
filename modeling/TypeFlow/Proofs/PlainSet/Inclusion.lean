import Mathlib.Data.Set.Image
import Mathlib.Order.MinMax
import TypeFlow.PlainSet.Subset
import TypeFlow.Proofs.PlainSet.Meaning
/-!
# Inclusion of plain sets

`subset?` is exact where it answers: it says yes exactly if what the one set denotes is included in
what the other denotes. It answers if the two trees settle the question by themselves, and otherwise
if neither normal form has an operator inside an operator (`subset?_exact`).

The universe holds more than the base types (`Spacious`), so that all base types together are not
everything. The atoms of a set span what it denotes, whatever its form (`spanned_atoms`), and they
are compared as the sets that they span (`atomsSubset_iff`). So it is only the limit on nesting that
keeps `subset?` from answering always.
-/

namespace TypeFlow

namespace PlainSet

variable {α : Type*} {point : BaseType → α} {a c s x : PlainSet} {ops : List PlainSet}

/-! ## Nesting -/

/-- Some part is an operator with an operator among its operands. -/
def Nested (a : PlainSet) : Prop := ∃ b, PartOf b a ∧ ∃ x ∈ b.operands, x.isOperator

theorem isOperator_of_mem_operands (h : x ∈ a.operands) : a.isOperator := by
  cases a <;> first | rfl | cases h

/-- It is enough to look at the operands of the set itself. -/
theorem nested_iff : Nested a ↔ ∃ x ∈ a.operands, x.isOperator := by
  constructor
  · rintro ⟨b, hb, hnested⟩
    induction hb with
    | self => exact hnested
    | operand hx _ ih =>
      obtain ⟨y, hy, -⟩ := ih hnested
      exact ⟨_, hx, isOperator_of_mem_operands hy⟩
  · exact fun h => ⟨a, .self a, h⟩

theorem depth_pos_iff : 0 < a.depth ↔ a.isOperator := by
  cases a with
  | anyOf ops | allOf ops => exact iff_of_true (Nat.add_pos_left Nat.one_pos _) rfl
  | _ => exact iff_of_false (Nat.lt_irrefl 0) nofun

theorem lt_depthMax_iff {k : Nat} : k < depthMax ops ↔ ∃ x ∈ ops, k < depth x := by
  induction ops with
  | nil => simp [depthMax]
  | cons x xs ih => rw [depthMax, lt_max_iff, ih, List.exists_mem_cons_iff]

theorem one_lt_depth_iff : 1 < a.depth ↔ Nested a := by
  have hdeeper : ∀ {ops : List PlainSet}, 1 < 1 + depthMax ops ↔ ∃ x ∈ ops, x.isOperator := by
    intro ops
    rw [Nat.lt_add_right_iff_pos, lt_depthMax_iff]
    simp only [depth_pos_iff]
  rw [nested_iff]
  cases a with
  | anyOf ops | allOf ops => exact hdeeper
  | _ => simp [depth, operands]

instance : DecidablePred Nested := fun _ => decidable_of_iff _ one_lt_depth_iff

/-! ## Atoms -/

/-- Base types stand for different elements of the universe, and some element is none of these. -/
structure Spacious (point : BaseType → α) : Prop where
  injective : Function.Injective point
  outsider : ∃ z, ∀ b, point b ≠ z

/-- The elements that atoms stand for, everything if there is no list of them. -/
def spanned (point : BaseType → α) : Option (List BaseType) → Set α
  | none => Set.univ
  | some bs => point '' {b | b ∈ bs}

theorem spanned_append (point : BaseType → α) (bs cs : List BaseType) :
    spanned point (some (bs ++ cs)) = spanned point (some bs) ∪ spanned point (some cs) := by
  rw [spanned, spanned, spanned, ← Set.image_union]
  congr 1
  ext b
  exact List.mem_append

theorem spanned_filter (hinj : Function.Injective point) (bs cs : List BaseType) :
    spanned point (some (bs.filter (· ∈ cs))) =
      spanned point (some bs) ∩ spanned point (some cs) := by
  rw [spanned, spanned, spanned, ← Set.image_inter hinj]
  congr 1
  ext b
  simp

mutual

theorem spanned_atoms (hinj : Function.Injective point) :
    ∀ a : PlainSet, spanned point a.atoms = denote point a
  | .univ => rfl
  | .empty => by simp [atoms, spanned, denote]
  | .base b => by simp [atoms, spanned, denote]
  | .anyOf ops => spanned_atomsAny hinj ops
  | .allOf ops => by
    rw [atoms, spanned_atomsAll hinj none ops, denote]
    exact Set.univ_inter _

theorem spanned_atomsAny (hinj : Function.Injective point) :
    ∀ ops : List PlainSet, spanned point (atomsAny ops) = denoteAny point ops
  | [] => by simp [atomsAny, spanned, denoteAny]
  | x :: xs => by
    rw [denoteAny, ← spanned_atoms hinj x, ← spanned_atomsAny hinj xs, atomsAny]
    cases atoms x with
    | none => exact (Set.univ_union _).symm
    | some bs =>
      cases atomsAny xs with
      | none => exact (Set.union_univ _).symm
      | some cs => exact spanned_append point bs cs

/-- As long as there is no list of atoms so far, nothing has been excluded. -/
theorem spanned_atomsAll (hinj : Function.Injective point) :
    ∀ (sofar : Option (List BaseType)) (ops : List PlainSet),
      spanned point (atomsAll sofar ops) = spanned point sofar ∩ denoteAll point ops
  | sofar, [] => by rw [atomsAll, denoteAll, Set.inter_univ]
  | none, x :: xs => by
    rw [denoteAll, ← spanned_atoms hinj x, atomsAll, spanned_atomsAll hinj]
    exact (Set.univ_inter _).symm
  | some bs, x :: xs => by
    rw [denoteAll, ← spanned_atoms hinj x, ← Set.inter_assoc]
    cases hx : atoms x with
    | none =>
      rw [atomsAll.eq_3 x xs bs hx, spanned_atomsAll hinj]
      exact congrArg (· ∩ _) (Set.inter_univ _).symm
    | some cs => rw [atomsAll.eq_4 x xs bs cs hx, spanned_atomsAll hinj, spanned_filter hinj]

end

/-- A list of atoms never spans everything, and otherwise spans what it lists. -/
theorem atomsSubset_iff (h : Spacious point) : ∀ {c s : Option (List BaseType)},
    atomsSubset c s = true ↔ spanned point s ⊆ spanned point c
  | none, s => by simp [atomsSubset, spanned]
  | some cs, none => by
    obtain ⟨z, hz⟩ := h.outsider
    refine ⟨nofun, fun hsub => ?_⟩
    obtain ⟨b, -, hb⟩ := hsub (Set.mem_univ z)
    exact absurd hb (hz b)
  | some cs, some bs => by
    rw [spanned, spanned, Set.image_subset_image_iff h.injective]
    simp [atomsSubset, Set.subset_def]

/-! ## Answers -/

/-- The inclusions that the trees alone settle. -/
def Evident (c s : PlainSet) : Prop := c = .univ ∨ s = .empty ∨ c = s

instance : Decidable (Evident c s) :=
  inferInstanceAs (Decidable (c = .univ ∨ s = .empty ∨ c = s))

theorem Evident.subset (h : Evident c s) : denote point s ⊆ denote point c := by
  rcases h with rfl | rfl | rfl
  · exact Set.subset_univ _
  · exact Set.empty_subset _
  · exact Set.Subset.rfl

theorem subset?_of_evident (h : Evident c s) : subset? c s = .ok true := if_pos h

theorem subset?_of_flat (h : ¬ Evident c s) (hc : ¬ c.simplify.Nested) (hs : ¬ s.simplify.Nested) :
    subset? c s = .ok (atomsSubset c.simplify.atoms s.simplify.atoms) := by
  rw [← one_lt_depth_iff] at hc hs
  exact (if_neg h).trans (if_neg (not_or.2 ⟨hc, hs⟩))

theorem subset?_of_nested (h : ¬ Evident c s) (hnested : c.simplify.Nested ∨ s.simplify.Nested) :
    subset? c s = .error ⟨c.simplify, s.simplify⟩ := by
  rw [← one_lt_depth_iff, ← one_lt_depth_iff] at hnested
  exact (if_neg h).trans (if_pos hnested)

/-- An answer about sets without intersections of nothing tells whether what the one denotes is
included in what the other does. There is one exactly if the inclusion is evident or neither normal
form is nested, and otherwise the two normal forms are reported. -/
theorem subset?_exact (h : Spacious point) (c s : PlainSet) :
    (c.Solid → s.Solid → ∀ answer, subset? c s = .ok answer →
      (answer = true ↔ denote point s ⊆ denote point c)) ∧
    (Evident c s ∨ ¬ c.simplify.Nested ∧ ¬ s.simplify.Nested →
      ∃ answer, subset? c s = .ok answer) ∧
    (¬ (Evident c s ∨ ¬ c.simplify.Nested ∧ ¬ s.simplify.Nested) →
      subset? c s = .error ⟨c.simplify, s.simplify⟩) := by
  by_cases hevident : Evident c s
  · have heq := subset?_of_evident hevident
    refine ⟨fun _ _ answer hanswer => ?_, fun _ => ⟨true, heq⟩, fun hnot => ?_⟩
    · obtain rfl : true = answer := Except.ok.inj (heq.symm.trans hanswer)
      exact iff_of_true rfl hevident.subset
    · exact absurd (Or.inl hevident) hnot
  by_cases hnested : c.simplify.Nested ∨ s.simplify.Nested
  · have heq := subset?_of_nested hevident hnested
    refine ⟨fun _ _ answer hanswer => ?_, fun hanswer => ?_, fun _ => heq⟩
    · cases heq.symm.trans hanswer
    · obtain ⟨hc, hs⟩ := hanswer.resolve_left hevident
      exact absurd hnested (not_or.2 ⟨hc, hs⟩)
  · obtain ⟨hc, hs⟩ := not_or.1 hnested
    have heq := subset?_of_flat hevident hc hs
    refine ⟨fun hcsolid hssolid answer hanswer => ?_, fun _ => ⟨_, heq⟩, fun hnot => ?_⟩
    · obtain rfl := Except.ok.inj (heq.symm.trans hanswer)
      rw [atomsSubset_iff h, spanned_atoms h.injective, spanned_atoms h.injective,
        denote_simplify_of_solid point hcsolid, denote_simplify_of_solid point hssolid]
    · exact absurd (Or.inr ⟨hc, hs⟩) hnot

/-- Base types and one element more. -/
theorem spacious_some : Spacious (some : BaseType → Option BaseType) where
  injective := Option.some_injective BaseType
  outsider := ⟨none, fun _ => nofun⟩

/-- All base types, in unions that become one, include an intersection that becomes a single type,
but not one that becomes everything. A union with an intersection in it is compared with nothing but
itself. -/
theorem subset?_exact_allBases :
    let point : BaseType → Option BaseType := some
    let c : PlainSet := .anyOf [.anyOf [.base .set, .anyOf (BaseType.all.map .base)], .empty]
    let s : PlainSet := .allOf [.univ, .anyOf [.univ, .univ]]
    let t : PlainSet := .allOf [.univ, .anyOf [.base .int, .base .int], .univ]
    let deep : PlainSet := .anyOf [.allOf [.base .int, .base .float], .base .string]
    (Spacious point ∧ c.Solid ∧ s.Solid ∧ t.Solid) ∧
    (subset? c s = .ok false ∧ ¬ denote point s ⊆ denote point c) ∧
    (subset? c t = .ok true ∧ denote point t ⊆ denote point c) ∧
    subset? c deep = .error ⟨c.simplify, deep⟩ ∧ subset? deep deep = .ok true := by
  intro point c s t deep
  have hc : c.Solid := by decide
  have hs : s.Solid := by decide
  have ht : t.Solid := by decide
  have hcs : subset? c s = .ok false := by decide
  have hct : subset? c t = .ok true := by decide
  have hno := (subset?_exact spacious_some c s).1 hc hs false hcs
  have hyes := (subset?_exact spacious_some c t).1 hc ht true hct
  refine ⟨⟨spacious_some, hc, hs, ht⟩, ⟨hcs, fun hsub => ?_⟩, ⟨hct, hyes.1 rfl⟩, ?_, by decide⟩
  · cases hno.2 hsub
  · exact (subset?_exact spacious_some c deep).2.2 (by decide)

end PlainSet

end TypeFlow
