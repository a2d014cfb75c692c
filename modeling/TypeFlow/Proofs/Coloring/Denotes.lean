import TypeFlow.Annotation
import TypeFlow.Proofs.Graph.Children
import TypeFlow.Proofs.TypeSet.Refinement
/-!
# What type nodes stand for

A type node stands for a type, read along its edges (`Graph.Denotes`), and a class for itself. It
keeps doing so while a graph only grows (`Denotes.mono`), and what it stands for decides how it
reads (`describeOver_eq`).
-/

namespace TypeFlow

namespace TypeSet

/-- How deep containers nest in a leaf. -/
def depth : TypeSet → Nat
  | .arged _ arg => arg.depth + 1
  | _ => 0

/-- All classes of a leaf are among the given ones. -/
def ClassesIn (K : NodeId → Prop) : TypeSet → Prop
  | .arged _ arg => ClassesIn K arg
  | .cls decl => K decl
  | _ => True

theorem ClassesIn.mono {K L : NodeId → Prop} (h : ∀ c, K c → L c) :
    ∀ x : TypeSet, ClassesIn K x → ClassesIn L x
  | .arged _ arg => ClassesIn.mono h arg
  | .cls c => h c
  | .univ | .empty | .base _ | .anyOf _ => fun _ => trivial

theorem classesIn_of_refines {K : NodeId → Prop} {x y : TypeSet} (hx : ClassesIn K x)
    (h : Refines x y) : ClassesIn K y := by
  induction h with
  | refl => exact hx
  | bare => trivial
  | arg b _ ih => exact ih hx

end TypeSet

namespace Graph

variable {g h : Graph} {n m : NodeId} {x y : TypeSet} {R : Role → Prop}

/-! ## Growth -/

/-- The first graph is still there in the second, with its children in some roles; only type nodes
and classes may have become parts of more. -/
structure Extends (R : Role → Prop) (g h : Graph) : Prop where
  size : g.size ≤ h.size
  kind : ∀ n, g.has n → h.kind n = g.kind n
  payload : ∀ n, g.has n → h.payload n = g.payload n
  child : ∀ n r, g.has n → R r → h.child? n r = g.child? n r
  parents : ∀ n, g.has n → (g.kind n).category ≠ .type → g.kind n ≠ .decl .classDecl →
    h.parents n = g.parents n

namespace Extends

theorem refl (R : Role → Prop) (g : Graph) : Extends R g g :=
  ⟨Nat.le_refl _, fun _ _ => rfl, fun _ _ => rfl, fun _ _ _ _ => rfl, fun _ _ _ _ => rfl⟩

theorem has (hgh : Extends R g h) (hn : g.has n) : h.has n := by
  have := hgh.size
  simp only [Graph.has, decide_eq_true_eq] at hn ⊢
  omega

theorem trans {k : Graph} (hgh : Extends R g h) (hhk : Extends R h k) : Extends R g k where
  size := Nat.le_trans hgh.size hhk.size
  kind n hn := (hhk.kind n (hgh.has hn)).trans (hgh.kind n hn)
  payload n hn := (hhk.payload n (hgh.has hn)).trans (hgh.payload n hn)
  child n r hn hr := (hhk.child n r (hgh.has hn) hr).trans (hgh.child n r hn hr)
  parents n hn htype hcls := by
    have hkind := hgh.kind n hn
    rw [hhk.parents n (hgh.has hn) (hkind ▸ htype) (hkind ▸ hcls), hgh.parents n hn htype hcls]

theorem mono {Q : Role → Prop} (hgh : Extends R g h) (hQ : ∀ r, Q r → R r) : Extends Q g h :=
  { hgh with child := fun n r hn hr => hgh.child n r hn (hQ r hr) }

end Extends

/-! ## Denotation -/

/-- What a type node stands for. -/
inductive Denotes (g : Graph) : NodeId → TypeSet → Prop
  | dynamic {n : NodeId} (hn : g.kind n = .type .dynamic) : Denotes g n .univ
  | base {n : NodeId} {b : BaseType} (hn : g.kind n = .type (.base b)) : Denotes g n (.base b)
  | generic {n m k : NodeId} {b : BaseType} {x : TypeSet} (hn : g.kind n = .type .generic)
      (hm : g.child? n .base = some m) (hb : g.kind m = .type (.base b))
      (hk : g.child? n .arg = some k) (hx : Denotes g k x) : Denotes g n (.arged b x)
  | cls {n : NodeId} (hn : g.kind n = .decl .classDecl) : Denotes g n (.cls n)

/-- A node stands for one type. -/
theorem Denotes.functional (hx : g.Denotes n x) (hy : g.Denotes n y) : x = y := by
  induction hx generalizing y with
  | dynamic hn => cases hy <;> simp_all
  | base hn => cases hy <;> simp_all
  | cls hn => cases hy <;> simp_all
  | generic hn hm hb hk _ ih =>
    cases hy with
    | generic hn' hm' hb' hk' hx' =>
      obtain rfl := Option.some.inj (hm.symm.trans hm')
      obtain rfl := Option.some.inj (hk.symm.trans hk')
      rw [hb] at hb'
      cases hb'
      rw [ih hx']
    | _ => simp_all

theorem Denotes.kind_ne_void (hx : g.Denotes n x) : g.kind n ≠ .type .void := by
  cases hx with
  | dynamic hn | base hn | generic hn | cls hn => simp [hn]

theorem Denotes.has (hx : g.Denotes n x) : g.has n := by
  cases hx with
  | dynamic hn | base hn | generic hn | cls hn => exact has_of_kind hn nofun

/-- What a node stands for survives growth. -/
theorem Denotes.mono (hgh : Extends R g h) (hbase : R .base) (harg : R .arg)
    (hx : g.Denotes n x) : h.Denotes n x := by
  induction hx with
  | dynamic hn => exact .dynamic ((hgh.kind _ (has_of_kind hn nofun)).trans hn)
  | base hn => exact .base ((hgh.kind _ (has_of_kind hn nofun)).trans hn)
  | cls hn => exact .cls ((hgh.kind _ (has_of_kind hn nofun)).trans hn)
  | @generic n m k b x hn hm hb hk hx ih =>
    have hhas : g.has n := has_of_kind hn nofun
    exact .generic ((hgh.kind n hhas).trans hn) ((hgh.child n _ hhas hbase).trans hm)
      ((hgh.kind m (has_of_kind hb nofun)).trans hb) ((hgh.child n _ hhas harg).trans hk) ih

/-- How a type reads, classes by their names. -/
def typeText (g : Graph) : TypeSet → String
  | .univ => "dyn"
  | .base b => b.name
  | .arged b x => b.name ++ "<" ++ g.typeText x ++ ">"
  | .cls decl => (g.name? decl).getD "?"
  | other => other.text

/-- A node reads as what it stands for, if the edges that are followed suffice. -/
theorem describeOver_eq (hx : g.Denotes n x) : ∀ {fuel : Nat}, x.depth < fuel →
    g.describeOver fuel n = g.typeText x := by
  induction hx with
  | dynamic hn =>
    rintro (_ | fuel) hfuel
    · cases hfuel
    · simp only [describeOver, hn, typeText]
  | base hn =>
    rintro (_ | fuel) hfuel
    · cases hfuel
    · simp only [describeOver, hn, typeText]
  | cls hn =>
    rintro (_ | fuel) hfuel
    · cases hfuel
    · simp only [describeOver, hn, typeText]
  | @generic n m k b x hn hm hb hk _ ih =>
    rintro (_ | fuel) hfuel
    · cases hfuel
    · have hdepth : x.depth < fuel := Nat.lt_of_succ_lt_succ hfuel
      have hbase : g.describeOver fuel m = b.name := by
        obtain ⟨fuel, rfl⟩ := Nat.exists_eq_add_one_of_ne_zero (Nat.ne_zero_of_lt hdepth)
        simp only [describeOver, hb]
      simp only [describeOver, hn, hm, hk, ih hdepth, hbase, typeText]

end Graph

end TypeFlow
