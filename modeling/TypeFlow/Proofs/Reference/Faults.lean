import TypeFlow.Proofs.Program.Composed
import TypeFlow.Proofs.Reference.Resolved
/-!
# What references fail at

In a lowered program whose references bear their names, a reference can fail to be tied only because
nothing in the program has its name (`Reference.fault_of_run`): an identifier or a field of `self`
on the way, a call or a named type at the end.
-/

namespace TypeFlow

open TypeFlow.Graph Program

/-- Whether a fault is that nothing in the program has a name. -/
def Fault.isUnknownName : Fault → Bool
  | .unknownIdentifier _ _ | .unknownFunction _ _ | .unknownClass _ _ => true
  | _ => false

/-- What the parser names in a program bears its name. -/
def Program.BearsNames (g : Graph) (root : NodeId) : Prop :=
  ∀ n, g.Below root n → bearsName (g.kind n) → (g.name? n).isSome

namespace Scopes

variable {g c : Graph} {root s : NodeId} {r : Role} {k : NodeKind} {p : Payload}

theorem bearsNames_hang (h : BearsNames g root) (hg : g.Rooted root) (hs : g.has s)
    (hnew : bearsName k → p.name?.isSome) : BearsNames (g.hang s r k p) root := by
  intro n hn hname
  rw [name?, payload_hang]
  rw [kind_hang] at hname
  rcases below_of_hang hs hn with hn | ⟨rfl, -⟩
  · rw [if_neg (ne_fresh (hg.has_below hn))] at hname ⊢
    exact h n hn hname
  · rw [if_pos rfl] at hname ⊢
    exact hnew hname

/-- Collecting scopes takes no names away. -/
theorem Sprouts.bearsNames (h : Sprouts g c) (hg : Outlined g root) (hnames : BearsNames g root) :
    BearsNames c root := by
  induction h with
  | refl => exact hnames
  | scope hc hkind _ ih =>
    exact bearsNames_hang ih (hc.outlined hg).toRooted (has_of_kind hkind (by decide))
      (by decide)
  | varDef hc hkind _ _ name ih =>
    exact bearsNames_hang ih (hc.outlined hg).toRooted (has_of_kind hkind (by decide))
      fun _ => rfl

end Scopes

namespace Reference

open Scopes

variable {s : Scopes} {g c h : Graph} {root n : NodeId} {fault : Fault}

/-! ## Rules -/

/-- A rule looks only at nodes that bear a name. -/
theorem bearsName_of_applies {r : GraphRule} (hr : r ∈ rules s) (h : r.applies c n) :
    bearsName (c.kind n) := by
  simp only [rules, List.mem_cons, List.not_mem_nil, or_false] at hr
  rcases hr with rfl | rfl | rfl | rfl
  · have hkind : c.kind n = .expr .ident := by simpa using (Bool.and_eq_true_iff.1 h).1
    rw [hkind]
    rfl
  · have hkind : c.kind n = .expr .fieldGet := by
      simpa using (Bool.and_eq_true_iff.1 (Bool.and_eq_true_iff.1 h).1).1
    rw [hkind]
    rfl
  · have hkind : c.kind n = .expr .call := by simpa using (Bool.and_eq_true_iff.1 h).1
    rw [hkind]
    rfl
  · have hkind : c.kind n = .type .named := by simpa using (Bool.and_eq_true_iff.1 h).1
    rw [hkind]
    rfl

/-- Where a rule can read the name, it fails only if nothing has the name. -/
theorem isUnknownName_of_fire? {r : GraphRule} (hr : r ∈ rules s)
    (hnamed : bearsName (c.kind n) → (c.name? n).isSome)
    (hfire : r.fire? c n = .error fault) : fault.isUnknownName := by
  unfold Rule.fire? at hfire
  split at hfire
  · next happlies =>
    obtain ⟨name, hname⟩ := Option.isSome_iff_exists.1 (hnamed (bearsName_of_applies hr happlies))
    have hrequire : c.requireName n = .ok name := requireName_eq_ok.2 hname
    simp only [rules, List.mem_cons, List.not_mem_nil, or_false] at hr
    rcases hr with rfl | rfl | rfl | rfl
    · simp only [identRule, hrequire, Run.ok_bind] at hfire
      split at hfire
      · cases hfire
      · rw [← Except.error.inj hfire]
        rfl
    · simp only [selfFieldRule, hrequire, Run.ok_bind] at hfire
      split at hfire
      · cases hfire
      · rw [← Except.error.inj hfire]
        rfl
    · simp only [callRule, hrequire, Run.ok_bind] at hfire
      split at hfire
      · cases hfire
      · split at hfire <;> cases hfire
    · simp only [namedTypeRule, hrequire, Run.ok_bind] at hfire
      split at hfire
      · cases hfire
      · split at hfire
        · cases hfire
        · split at hfire <;> cases hfire
  · cases hfire

/-! ## The last check -/

/-- What a node was made of bore a name if it does. -/
theorem Recast.bearsName {k k' : NodeKind} (h : Recast k k') (hk : bearsName k') :
    Program.bearsName k := by
  cases h with
  | same => exact hk
  | sysCall | dynCall | objectInit | base | dynamic => rfl

theorem Linked.bearsNames (hl : Linked s c h) (hnames : BearsNames c root) : BearsNames h root := by
  intro n hn hname
  rw [hl.name?_eq]
  exact hnames n ((hl.below_iff root).1 hn) ((hl.recast n).bearsName hname)

theorem isUnknownName_of_checkResolved (hnames : BearsNames h root)
    (hcheck : checkResolved h root = .error fault) : fault.isUnknownName := by
  unfold checkResolved at hcheck
  split at hcheck
  · cases hcheck
  · next n hfirst =>
    have hbelow : h.Below root n := mem_visits_down.1 (List.mem_of_find?_eq_some hfirst)
    have hloose : h.kind n = .expr .call ∨ h.kind n = .type .named := by
      have hunresolved := List.find?_some hfirst
      simp only [isUnresolved, isLoose, Bool.or_eq_true, Bool.and_eq_true, decide_eq_true_eq]
        at hunresolved
      exact hunresolved.imp And.left And.left
    obtain ⟨name, hname⟩ := Option.isSome_iff_exists.1
      (hnames n hbelow (by rcases hloose with h | h <;> rw [h] <;> rfl))
    simp only [requireName_eq_ok.2 hname, Run.ok_bind] at hcheck
    split at hcheck <;> rw [← Except.error.inj hcheck] <;> rfl

/-! ## The run -/

/-- A lowered program whose references bear their names fails for want of rounds, or because nothing
has a name. -/
theorem fault_of_run (hg : Lowered g root) (hnames : BearsNames g root) {ceiling : Nat}
    (hrun : (run root ceiling).run g = (.error fault, h)) :
    fault.isDiverged ∨ fault.isUnknownName := by
  obtain ⟨s, c, hcollect, hs, -⟩ := yields_collect hg.toUnscoped
  have hc : c.Untied := hs.sprouts.grows.untied hg.untied
  have hcnames : BearsNames c root := hs.sprouts.bearsNames hg.toOutlined hnames
  have hstep : ∀ r ∈ rules s, ∀ n ∈ c.reachable root fun _ => true, ∀ t t', Linked s c t →
      Rule.Fires Graph.commit r n t t' → Linked s c t' :=
    fun r hr n _ t t' ht hfires => ((firesOnce_rules hc).step r hr n t t' ht hfires).1
  rw [run_of_collect hcollect, Run.run_bind_eq_error] at hrun
  rcases hrun with hfix | ⟨stats, t, hfix, hrun⟩
  · rcases Rule.fails_of_fixpoint hstep (linked_refl hc) hfix with
      hdiverged | ⟨r, hr, n, hn, t, hl, hfails⟩
    · exact Or.inl hdiverged
    · refine Or.inr (isUnknownName_of_fire? hr (fun hname => ?_) (fire?_of_fails hc hl hr hfails))
      exact hcnames n (mem_reachable.1 hn).1 hname
  · have hl : Linked s c t := linked_of_fixpoint hc hfix
    rw [Run.run_bind_of_ok Run.run_get, Run.run_bind_eq_error] at hrun
    rcases hrun with hcheck | ⟨-, u, -, hrun⟩
    · rw [Run.run_ofExcept] at hcheck
      exact Or.inr (isUnknownName_of_checkResolved (hl.bearsNames hcnames)
        (Run.outcome_eq.1 hcheck).1)
    · cases (Run.outcome_eq.1 hrun).1

end Reference

end TypeFlow
