import TypeFlow.Proofs.Annotation
import TypeFlow.Proofs.Flow.Seeds
/-!
# The types that a program declares

In a resolved program a declared type denotes a set unless a container type in it is not one: its
base takes no argument, or its argument is not a leaf (`badContainer_of_annotationSet`). So this is
all that reading the declared types can fail at (`badContainer_of_badType`).
-/

namespace TypeFlow

theorem TypeSet.proper_of_isLeaf {x : TypeSet} (h : x.Canonical) (hleaf : x.isLeaf) : x.Proper := by
  refine h.proper (fun hu => ?_) ?_
  · rw [hu] at hleaf
    cases hleaf
  · cases x <;> first | exact List.mem_singleton_self _ | cases hleaf

namespace Program

variable {g : Graph} {root n type : NodeId} {fault : Fault}

theorem exists_type_of_category {k : NodeKind} (h : k.category = .type) : ∃ t, k = .type t := by
  cases k <;> first | exact ⟨_, rfl⟩ | cases h

theorem exists_base_of_fits {k : NodeKind} (h : fits (.type .generic) .base k) :
    ∃ b, k = .type (.base b) := by
  cases k with
  | type k => cases k <;> first | exact ⟨_, rfl⟩ | cases h
  | _ => cases h

/-- What is declared is a type. -/
theorem category_of_fits {k k' : NodeKind} {r : Role} (hr : r = .declaredType ∨ r = .returnType)
    (h : fits k r k') : k'.category = .type := by
  have hhost : k = .decl .param ∨ k = .decl .field ∨ k = .decl .function ∨ k = .stmt .varInit := by
    rcases hr with rfl | rfl
    all_goals
      cases k with
      | decl k | stmt k | expr k | type k => cases k <;> first | cases h | simp
      | _ => cases h
  rcases hhost with rfl | rfl | rfl | rfl <;> rcases hr with rfl | rfl <;>
    first | exact of_decide_eq_true h | cases h

/-- Types and classes have no parameters. -/
theorem host_of_fits_param {k : NodeKind} {r : Role} (h : fits k r (.decl .param)) :
    k.category ≠ .type ∧ k ≠ .decl .classDecl := by
  obtain rfl : k = .decl .function := heldBy_of_fits h
  exact ⟨nofun, nofun⟩

/-- A container type of the program that is not one. -/
inductive BadContainer (g : Graph) (root : NodeId) : TypeSet.Malformed → Prop
  | base {n base arg : NodeId} {b : BaseType} {x : TypeSet} (hn : g.Below root n)
      (hkind : g.kind n = .type .generic) (hbase : g.child? n .base = some base)
      (hb : g.kind base = .type (.base b)) (harg : g.child? n .arg = some arg)
      (hx : g.annotationSet arg = .ok x) (hcontainer : b.isContainer = false) :
      BadContainer g root (.argumentOfNonContainer b x)
  | argument {n arg : NodeId} {x : TypeSet} (hn : g.Below root n)
      (hkind : g.kind n = .type .generic) (harg : g.child? n .arg = some arg)
      (hx : g.annotationSet arg = .ok x) (hleaf : x.isLeaf = false) :
      BadContainer g root (.argumentNotLeaf x)

/-- A container with an argument in order fails only if it is not one. -/
theorem malformed_of_argedSet {b : BaseType} {x : TypeSet} (hx : x.isLeaf → TypeSet.Proper x)
    (h : Graph.argedSet b x = .error fault) :
    (b.isContainer = false ∧ fault = .malformedSet (.argumentOfNonContainer b x)) ∨
      (x.isLeaf = false ∧ fault = .malformedSet (.argumentNotLeaf x)) := by
  rw [Graph.argedSet, TypeSet.check, TypeSet.checkLeaf] at h
  · by_cases hb : b.isContainer
    · by_cases hleaf : x.isLeaf
      · simp [hb, hleaf, (TypeSet.checkLeaf_eq_ok hleaf).2 (hx hleaf)] at h
      · simp only [hb, hleaf] at h
        exact Or.inr ⟨by simpa using hleaf, (Except.error.inj h).symm⟩
    · simp only [hb] at h
      exact Or.inl ⟨by simpa using hb, (Except.error.inj h).symm⟩
  · rintro _ ⟨⟩

/-- With room for the nodes that are not above it, a type node of a resolved program fails to
denote a set only where a container type is not one. -/
theorem badContainer_of_ancestors (hg : Resolved g root) : ∀ (room : Nat) {n : NodeId}
    {k : TypeKind} {l : List NodeId}, g.Below root n → g.kind n = .type k → Graph.Ancestors g n l →
      g.size ≤ room + l.length → g.annotationSet n = .error fault →
        ∃ cause, fault = .malformedSet cause ∧ BadContainer g root cause
  | 0, n, k, l, hn, _, hl, hroom, _ => by
    have hlength := Graph.length_le_size hl.nodup
      (List.forall_mem_cons.2 ⟨hg.has_below hn, hl.has hg.kept.balanced⟩)
    simp only [List.length_cons] at hlength
    omega
  | room + 1, n, k, l, hn, hkind, hl, hroom, h => by
    have hpart : ∀ {r}, r ∈ required (.type k) → ∃ m, g.child? n r = some m := fun hr =>
      Option.isSome_iff_exists.1 (hg.complete n hn _ (hkind ▸ hr))
    cases k with
    | base b =>
      rw [Graph.annotationSet, Graph.annotationOver, hkind] at h
      cases h
    | generic =>
      obtain ⟨base, hbase⟩ := hpart (r := .base) (by simp [required])
      obtain ⟨arg, harg⟩ := hpart (r := .arg) (by simp [required])
      have hbaseFits := hg.fits_child hn hbase rfl
      have hargFits := hg.fits_child hn harg rfl
      rw [hkind] at hbaseFits hargFits
      obtain ⟨b, hb⟩ := exists_base_of_fits hbaseFits
      obtain ⟨k', hk'⟩ := exists_type_of_category (of_decide_eq_true hargFits)
      have hargBelow := hn.of_child? harg rfl
      rw [Graph.annotationSet_generic hg.rooted hn hkind hbase harg, Graph.annotationBase, hb,
        Run.ok_bind] at h
      rcases Run.bind_eq_error.1 h with h | ⟨x, hx, h⟩
      · refine badContainer_of_ancestors hg room hargBelow hk'
          (.step (hg.rooted.parents_of_child? hn harg rfl) hl) ?_ h
        rw [List.length_cons]
        omega
      · have hcanonical := (over_annotationSet hg hargBelow hx).1
        rcases malformed_of_argedSet (TypeSet.proper_of_isLeaf hcanonical) h with
          ⟨hb', rfl⟩ | ⟨hleaf, rfl⟩
        · exact ⟨_, rfl, .base hn hkind hbase hb harg hx hb'⟩
        · exact ⟨_, rfl, .argument hn hkind harg hx hleaf⟩
    | named =>
      obtain ⟨c, hc⟩ := hpart (r := .ref) (by simp [required])
      rw [Graph.annotationSet, Graph.annotationOver, hkind] at h
      simp only [Graph.requireChild, hc] at h
      cases h
    | dynamic | void =>
      rw [Graph.annotationSet, Graph.annotationOver, hkind] at h
      cases h

/-- A type node of a resolved program fails to denote a set only where a container type is not
one. -/
theorem badContainer_of_annotationSet (hg : Resolved g root) (hn : g.Below root n)
    (hkind : (g.kind n).category = .type) (h : g.annotationSet n = .error fault) :
    ∃ cause, fault = .malformedSet cause ∧ BadContainer g root cause := by
  obtain ⟨l, hl⟩ := hg.rooted.exists_ancestors hn
  obtain ⟨k, hk⟩ := exists_type_of_category hkind
  exact badContainer_of_ancestors hg g.size hn hk hl (Nat.le_add_right _ _) h

/-- Reading a declared type fails only where a container type is not one. -/
theorem badContainer_of_badType (hg : Resolved g root) (h : BadType g root fault) :
    ∃ cause, fault = .malformedSet cause ∧ BadContainer g root cause := by
  obtain ⟨n, type, hn, htype, hfault⟩ := h
  refine badContainer_of_annotationSet hg (htype.elim (hn.of_child? · rfl) (hn.of_child? · rfl)) ?_
    hfault
  rcases htype with htype | htype
  · exact category_of_fits (Or.inl rfl) (hg.fits_child hn htype rfl)
  · exact category_of_fits (Or.inr rfl) (hg.fits_child hn htype rfl)

end Program

end TypeFlow
