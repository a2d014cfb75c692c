import TypeFlow.Proofs.Coloring.Palette
/-!
# Types read back

The type node of a type without classes denotes that type again when it is read as an annotation
(`annotationSet_eq`), and reads as the type is written (`describeType_eq_written`).
-/

namespace TypeFlow

open TypeSet

namespace TypeSet

/-- No class occurs in a leaf. -/
abbrev ClassFree : TypeSet → Prop := ClassesIn fun _ => False

/-- How a program writes a type. -/
def written : TypeSet → String
  | .univ => "dyn"
  | .empty => "void"
  | other => other.text

end TypeSet

namespace Graph

variable {g : Graph} {n : NodeId} {x : TypeSet} {b : BaseType}

theorem argedSet_of_proper (hx : Proper (.arged b x)) : argedSet b x = .ok (.arged b x) := by
  rw [argedSet, hx.canonical.check]

/-- A node denotes what it stands for, if the edges that are followed suffice. -/
theorem annotationOver_eq (hx : g.Denotes n x) : x = .univ ∨ Proper x → ClassFree x →
    ∀ {fuel : Nat}, x.depth < fuel → g.annotationOver fuel n = .ok x := by
  induction hx with
  | dynamic hn =>
    rintro - - (_ | fuel) hfuel
    · cases hfuel
    · simp only [annotationOver, hn]
  | base hn =>
    rintro - - (_ | fuel) hfuel
    · cases hfuel
    · simp only [annotationOver, hn]
  | cls hn => exact fun _ hfree => hfree.elim
  | @generic n m k b x hn hm hb hk _ ih =>
    intro hproper hfree
    have hproper : Proper (.arged b x) := hproper.resolve_left nofun
    rintro (_ | fuel) hfuel
    · cases hfuel
    · have harg := ih (Or.inr hproper.2) hfree (Nat.lt_of_succ_lt_succ hfuel)
      simp only [annotationOver, hn, requireChild, hm, hk, Run.ok_bind, annotationBase, hb, harg,
        argedSet_of_proper hproper]

/-- A shown type without classes is what its node denotes. -/
theorem annotationSet_eq (hx : g.Shows n x) (hproper : x = .univ ∨ Proper x)
    (hfree : ClassFree x) : g.annotationSet n = .ok x := by
  have hn : n.index < g.size := by simpa [has] using hx.denotes.has
  have hdepth := hx.depth
  exact annotationOver_eq hx.denotes hproper hfree (by omega)

/-- Types without classes are written alike in all graphs. -/
theorem typeText_eq_text : ∀ {x : TypeSet}, Proper x → ClassFree x → g.typeText x = x.text
  | .base _, _, _ => by rw [typeText, text]
  | .arged b x, hx, hfree => by rw [typeText, text, typeText_eq_text hx.2 hfree]
  | .cls _, _, hfree => hfree.elim

/-- A shown type without classes reads as it is written. -/
theorem describeType_eq_written (hx : g.Shows n x) (hproper : x = .univ ∨ Proper x)
    (hfree : ClassFree x) : g.describeType n = x.written := by
  rw [describeType_eq hx]
  rcases hproper with rfl | hproper
  · rfl
  · rw [typeText_eq_text hproper hfree]
    cases x <;> first | rfl | exact hproper.elim

theorem annotationSet_void (hn : g.kind n = .type .void) : g.annotationSet n = .ok .empty := by
  simp only [annotationSet, annotationOver, hn]

theorem describeType_void (hn : g.kind n = .type .void) : g.describeType n = "void" := by
  simp only [describeType, describeOver, hn]

end Graph

end TypeFlow
