import TypeFlow.Proofs.Program.Lowered
import TypeFlow.Proofs.Program.Parsed
/-!
# Composed programs

What a parser puts together, apart from the tree (`Composed`): a node holds only what may stand
there, where a surface form counts as what lowering makes of it (`stead`); it has the parts of its
kind; and what is asked for its name has one. A parsed program that is composed and has no surface
form any more is lowered (`Composed.lowered`).
-/

namespace TypeFlow

namespace Program

/-! ## Forms and what they stand for -/

/-- The kind that counts for the place of a node: a form is lowered to a value or to a block. -/
def stead : NodeKind → NodeKind
  | .surface .operatorSeq | .surface .dotPipe | .surface .dotted => .expr .call
  | .surface .forIn => .stmt .block
  | k => k

/-- Whether a node of the first kind, maybe a form, may hold what counts as the second in a role. -/
def takes : NodeKind → Role → NodeKind → Bool
  | .surface .operatorSeq, .item _, k | .surface .dotPipe, .item _, k => isValue k
  | .surface .dotted, .item _, k | .surface .kwArg, .value, k => isValue k
  | .surface .forIn, .iter, k => isValue k
  | .surface .forIn, .body, k => k = .stmt .block
  | k, r, k' => fits k r k'

/-- The edges that every node of a kind has before references are tied. -/
def parts : NodeKind → List Role
  | .decl .function => [.body]
  | k => (required k).filter (· ≠ .ref)

/-- Kinds whose nodes the parser names. -/
def bearsName : NodeKind → Bool
  | .expr .ident | .expr .call | .type .named => true
  | k => isDeclaration k || isNamed k

theorem stead_of_not_surface {k : NodeKind} (h : k.isSurface = false) : stead k = k := by
  cases k <;> first | rfl | cases h

theorem takes_of_not_surface {k k' : NodeKind} {r : Role} (h : k.isSurface = false) :
    takes k r k' = fits k r k' := by
  cases k with
  | surface k => cases h
  | _ => rfl

/-- The index of a place does not matter. -/
theorem takes_blur (k : NodeKind) (r : Role) (k' : NodeKind) :
    takes k r.blur k' = takes k r k' := by
  cases r with
  | item i => cases k with | decl k | stmt k | expr k | type k | surface k => cases k <;> rfl
  | _ => rfl

/-- Where a value may stand any value may. -/
theorem takes_of_value {k m m' : NodeKind} {r : Role} (h : takes k r m) (hm : isValue m)
    (hm' : isValue m') : takes k r m' := by
  cases k with
  | surface k =>
    cases k <;> cases r <;> first | exact hm' | cases h | (cases of_decide_eq_true h; cases hm)
  | _ => exact fits_of_isValue h hm hm'

/-! ## What the parser puts together -/

/-- A program whose nodes hold what they may, have the parts of their kinds and bear their names;
nothing is tied to a definition, no function has locals, and no call makes an object yet. -/
structure Composed (g : Graph) (root : NodeId) : Prop where
  kept : g.WellKept
  plain : ∀ n, ∀ e ∈ g.outgoing n, e.role ≠ .ref ∧ e.role ≠ .locals
  takes : ∀ n, g.Below root n → ∀ e ∈ g.arms n, isPart (g.kind e.node) = false →
    takes (g.kind n) e.role (stead (g.kind e.node))
  complete : ∀ n, g.Below root n → ∀ r ∈ parts (g.kind n), g.hasChild n r
  named : ∀ n, g.Below root n → bearsName (g.kind n) → (g.name? n).isSome
  calls : ∀ n, g.Below root n → g.kind n ≠ .expr .objectInit

theorem plain_iff {g : Graph} : (∀ n, ∀ e ∈ g.outgoing n, e.role ≠ .ref ∧ e.role ≠ .locals) ↔
    ∀ i < g.size, ∀ e ∈ g.outgoing ⟨i⟩, e.role ≠ .ref ∧ e.role ≠ .locals := by
  refine ⟨fun h i _ => h ⟨i⟩, fun h n => ?_⟩
  by_cases hn : g.has n = true
  · exact h n.index (by simpa [Graph.has] using hn)
  · simp [Graph.outgoing_of_not_has (by simpa using hn)]

theorem composed_iff {g : Graph} {root : NodeId} : Composed g root ↔
    (∀ i < g.size, KeptAt g ⟨i⟩) ∧
      (∀ i < g.size, ∀ e ∈ g.outgoing ⟨i⟩, e.role ≠ .ref ∧ e.role ≠ .locals) ∧
      ∀ n ∈ g.reachable root fun _ => true,
        (∀ e ∈ g.arms n, isPart (g.kind e.node) = false →
          takes (g.kind n) e.role (stead (g.kind e.node))) ∧
        (∀ r ∈ parts (g.kind n), g.hasChild n r) ∧
        (bearsName (g.kind n) → (g.name? n).isSome) ∧ g.kind n ≠ .expr .objectInit := by
  simp only [← wellKept_iff, ← plain_iff, Graph.mem_reachable, and_true]
  exact ⟨fun h => ⟨h.kept, h.plain, fun n hn =>
      ⟨h.takes n hn, h.complete n hn, h.named n hn, h.calls n hn⟩⟩,
    fun ⟨hkept, hplain, h⟩ => ⟨hkept, hplain, fun n hn => (h n hn).1, fun n hn => (h n hn).2.1,
      fun n hn => (h n hn).2.2.1, fun n hn => (h n hn).2.2.2⟩⟩

instance (g : Graph) (root : NodeId) : Decidable (Composed g root) :=
  decidable_of_iff _ composed_iff.symm

/-! ## Without surface forms -/

/-- Hosts of names are items of the program or of a class, and nothing holds the program. -/
theorem host_of_fits {k k' : NodeKind} {r : Role} (h : fits k r k') (hhost : k'.isScopeHost) :
    r.isItem ∧ ((k = .decl .program ∧ (k' = .decl .function ∨ k' = .decl .classDecl)) ∨
      (k = .decl .classDecl ∧ k' = .decl .function)) := by
  have hheld := heldBy_of_fits h
  unfold NodeKind.isScopeHost at hhost
  split at hhost
  · exact hheld.elim
  · obtain ⟨hitem, hk | hk⟩ := hheld
    · exact ⟨hitem, Or.inl ⟨hk, Or.inl rfl⟩⟩
    · exact ⟨hitem, Or.inr ⟨hk, rfl⟩⟩
  · exact ⟨hheld.1, Or.inl ⟨hheld.2, Or.inr rfl⟩⟩
  · cases hhost

namespace Composed

variable {g : Graph} {root n : NodeId}

theorem untied (h : Composed g root) : g.Untied := fun n e he => (h.plain n e he).1

theorem bare (h : Composed g root) (n : NodeId) : g.child? n .locals = none :=
  Graph.child?_eq_none.2 fun hmem => by
    obtain ⟨e, he, hr⟩ := List.mem_map.1 hmem
    exact (h.plain n e he).2 hr

section Lowered

variable (h : Composed g root) (hsurface : ∀ n, g.Below root n → (g.kind n).isSurface = false)
include h hsurface

theorem fits_of_lowered (hn : g.Below root n) {e : Edge} (he : e ∈ g.outgoing n)
    (hr : e.role.isStructural) : Program.fits (g.kind n) e.role (g.kind e.node) := by
  have htarget := hsurface e.node (hn.child he hr)
  have hpart : isPart (g.kind e.node) = false := by
    cases hk : g.kind e.node with
    | surface k =>
      rw [hk] at htarget
      cases htarget
    | _ => rfl
  have htakes := h.takes n hn e (Graph.mem_arms.2 ⟨he, hr⟩) hpart
  rwa [stead_of_not_surface htarget, takes_of_not_surface (hsurface n hn)] at htakes

variable (hp : Parsed g root)
include hp

/-- Hosts stand where they may. -/
theorem outlined_of_lowered : Outlined g root where
  kept := h.kept
  has := hp.has_root
  top := hp.top
  tree := hp.tree
  program := hp.program
  items m hm := by
    obtain ⟨r, hr, he⟩ := Graph.mem_items.1 hm
    have hfits := h.fits_of_lowered hsurface .root he (Role.isStructural_of_isItem hr)
    rw [hp.program] at hfits
    cases r with
    | item i =>
      exact (Bool.or_eq_true_iff.1 hfits).imp of_decide_eq_true of_decide_eq_true
    | _ => cases hr
  hosts n hn hhost := by
    have hprogram : ∀ {n}, g.Below root n → g.kind n = .decl .program → n = root := by
      intro n hn hkind
      cases hn with
      | root => rfl
      | child hk he hs =>
        have hfits := h.fits_of_lowered hsurface hk he hs
        rw [hkind] at hfits
        obtain ⟨-, ⟨-, h | h⟩ | ⟨-, h⟩⟩ := host_of_fits hfits rfl <;> cases h
    cases hn with
    | root => exact Or.inl rfl
    | @child k e hk he hs =>
      obtain ⟨hitem, ⟨hkind, -⟩ | ⟨hclass, hfunction⟩⟩ :=
        host_of_fits (h.fits_of_lowered hsurface hk he hs) hhost
      · obtain rfl := hprogram hk hkind
        exact Or.inr (Or.inl (Graph.mem_items.2 ⟨_, hitem, he⟩))
      · refine Or.inr (Or.inr ⟨hfunction, k, ?_, hclass, Graph.mem_items.2 ⟨_, hitem, he⟩⟩)
        -- a class is an item of the program
        cases hk with
        | root => cases hp.program.symm.trans hclass
        | child hk' he' hs' =>
          have hfits := h.fits_of_lowered hsurface hk' he' hs'
          obtain ⟨hitem', ⟨hkind', -⟩ | ⟨-, h'⟩⟩ := host_of_fits hfits (by rw [hclass]; rfl)
          · obtain rfl := hprogram hk' hkind'
            exact Graph.mem_items.2 ⟨_, hitem', he'⟩
          · cases hclass.symm.trans h'

/-- A parsed program that is composed and has no surface form is lowered. -/
theorem lowered (hsmall : g.size ≤ 2 ^ 32) : Lowered g root where
  toOutlined := h.outlined_of_lowered hsurface hp
  untied := h.untied
  bare := h.bare
  small := hsmall
  body n hn hkind := h.complete n hn .body (by rw [hkind]; exact List.mem_singleton_self _)
  named n hn hkind := h.named n hn (by
    unfold bearsName
    split <;> simp [hkind])
  fits n hn e he hr := h.fits_of_lowered hsurface hn he hr
  complete n hn r hr href := h.complete n hn r (by
    unfold parts
    split
    · next hk => simp [hk, required] at hr
    · simpa using ⟨hr, href⟩)
  reads n hn hkind := h.named n hn (by
    unfold bearsName
    split <;> simp [hkind])
  calls := h.calls

end Lowered

end Composed

end Program

end TypeFlow
