import TypeFlow.Proofs.Lowering.Names
/-!
# Every loop becomes a counting loop of its own

The sweep lowers the loops last. Each firing plants a counting loop behind all nodes that are there,
in the place of the loop, and leaves those that stand already alone (`Planting.carriedOut`). So
after a run each loop of the program has its counting loop, and only these have identifiers whose
names start like those of lowered loops (`loopsPlanted_of_run`).
-/

namespace TypeFlow

namespace Lowering

open TypeFlow.Graph Program

variable {g g₀ g₁ h : Graph} {root n x : NodeId} {turned : List NodeId} {p : Patch}
  {base : NodeId → Nat}

/-- A loop over a container. -/
def Loop (g : Graph) (root n : NodeId) : Prop := g.Below root n ∧ g.kind n = .surface .forIn

/-- An identifier of a name in the counting loop that stands at a number. -/
def Uses (n : NodeId) (var : String) (base : Nat) (name : String) (x : NodeId) : Prop :=
  ∃ i, (loopNodes var (iteratorName n) (counterName n))[i]? = some (.expr .ident, .str name) ∧
    x = ⟨base + i⟩

theorem loop_iff : Loop g root n ↔ g.Below root n ∧ task? g n = some .forIn :=
  and_congr_right fun _ => (task?_eq_some_form rfl).symm

theorem Loop.has (hn : Loop g root n) : g.has n := has_of_kind hn.2 nofun

/-- The identifiers of a counting loop that stands have their names. -/
theorem Planted.of_uses {var name : String} {start : Nat} (hp : Planted g n var start)
    (hx : Uses n var start name x) :
    g.Below ⟨start⟩ x ∧ g.kind x = .expr .ident ∧ g.name? x = some name := by
  obtain ⟨i, hi, rfl⟩ := hx
  obtain ⟨hkind, hpayload⟩ := hp.node i _ hi
  refine ⟨hp.below (List.getElem?_eq_some_iff.1 hi).1, hkind, ?_⟩
  rw [name?, hpayload]
  rfl

/-! ## One loop after the other -/

/-- On the way, each loop that is lowered has its counting loop, made of new nodes, and identifiers
with names like those of lowered loops stand in these only. -/
structure Planting (g₀ : Graph) (root : NodeId) (base : NodeId → Nat) (g : Graph) : Prop where
  composed : Composed g root
  size : g₀.size ≤ g.size
  payload : ∀ x, g₀.has x → g.payload x = g₀.payload x
  pending : ∀ n, Loop g root n → Loop g₀ root n
  planted : ∀ n, Loop g₀ root n → ¬Loop g root n → g₀.size ≤ base n ∧ g.Below root ⟨base n⟩ ∧
    ∃ var, g₀.name? n = some var ∧ Planted g n var (base n)
  named : ∀ x, g.Below root x → namesVariable (g.kind x) → ∀ name, g.name? x = some name →
    isReserved name → ∃ n var, Loop g₀ root n ∧ ¬Loop g root n ∧ g₀.name? n = some var ∧
      Uses n var (base n) name x

theorem planting_refl (hc : Composed g root) (hu : Unreserved g root) (base : NodeId → Nat) :
    Planting g root base g where
  composed := hc
  size := Nat.le_refl _
  payload _ _ := rfl
  pending _ hn := hn
  planted _ hn hnot := absurd hn hnot
  named x hx hk name hname hreserved := by
    rw [hu x hx hk name hname] at hreserved
    cases hreserved

/-- A firing plants the counting loop of one more loop. -/
theorem Planting.carriedOut (hs : Planting g₀ root base g) (hp : Parsed g root)
    (hn : g.Below root n) (hf : task? g n = some .forIn)
    (hfired : Fired lowerForIn g root n turned p) :
    Planting g₀ root (Function.update base n g.size) (carriedOut g p) := by
  have hc := hs.composed
  have hk : g.kind n = .surface .forIn := (task?_eq_some_form rfl).1 hf
  obtain ⟨var, iter, body, hname, heffect, hplan⟩ := plan_lowerForIn hp hc hn hk
  obtain rfl : loopPatch n var iter body = p :=
    Option.some.inj (Except.ok.inj (heffect.symm.trans hfired.effect))
  have hloop : ∀ x, Loop (Lowering.carriedOut g (loopPatch n var iter body)) root x ↔
      Loop g root x ∧ x ≠ n := fun x => by
    rw [loop_iff, hfired.lowers.tasks, loop_iff, and_assoc]
  have hpending : Loop g root n := ⟨hn, hk⟩
  have hloopn : Loop g₀ root n := hs.pending n hpending
  have hname₀ : g₀.name? n = some var := by rw [name?, ← hs.payload n hloopn.has]; exact hname
  refine ⟨hfired.composed, hs.size.trans (size_le_commit hfired.commits), fun x hx => ?_,
    fun x hx => hs.pending x ((hloop x).1 hx).1, fun m hm hdone => ?_,
    fun x hx hk name hxname hreserved => ?_⟩
  · rw [hplan.payload_carriedOut, payload_addAll (has_mono hs.size hx), hs.payload x hx]
  · by_cases hmn : m = n
    · subst hmn
      rw [Function.update_self]
      exact ⟨hs.size, below_carriedOut hplan hc hp.has_root hp hn hk hfired.lowers, var, hname₀,
        planted_carriedOut hplan hc hp.has_root (hp.has_below hn)⟩
    · rw [Function.update_of_ne hmn]
      obtain ⟨hnew, hbelow, name, hmname, hplanted⟩ :=
        hs.planted m hm fun h => hdone ((hloop m).2 ⟨h, hmn⟩)
      exact ⟨hnew, (hfired.lowers.stays _ hbelow (hplanted.not_isSurface (i := 0) (by decide))).1,
        name, hmname, hplanted.carriedOut hplan hc hp.has_root hbelow hk⟩
  · rcases hplan.namesVariable hc hp.has_root hx hk with
      ⟨hold, hkind, hpayload⟩ | ⟨i, m, hm, rfl, hkind, hpayload⟩
    · rw [hkind] at hk
      rw [name?, hpayload] at hxname
      obtain ⟨m, name', hm, hdone, hmname, huses⟩ := hs.named x hold hk name hxname hreserved
      have hmn : m ≠ n := by
        rintro rfl
        exact hdone hpending
      refine ⟨m, name', hm, fun h => hdone ((hloop m).1 h).1, hmname, ?_⟩
      rwa [Function.update_of_ne hmn]
    · rw [hkind] at hk
      obtain ⟨name', -, rfl⟩ := ident_of_loopNodes (List.mem_of_getElem? hm) hk
      rw [name?, hpayload] at hxname
      obtain rfl : name' = name := Option.some.inj hxname
      refine ⟨n, var, hloopn, fun h => ((hloop n).1 h).2 rfl, hname₀, i, hm, ?_⟩
      rw [Function.update_self]

theorem keeps_planting (g₀ : Graph) (root : NodeId) :
    Keeps root (fun g => g.size ≤ 2 ^ 32 → ∃ base, Planting g₀ root base g) lowerForIn .forIn :=
  keeps_of_fired (I := fun g => ∃ base, Planting g₀ root base g) handles_lowerForIn
    drafts_lowerForIn (fun ⟨_, hs⟩ => hs.composed)
    fun hp hn hf hfired ⟨_, hs⟩ => ⟨_, hs.carriedOut hp hn hf hfired⟩

/-! ## The run -/

/-- What lowering makes of the loops of a program: each has its counting loop, made of new nodes,
and identifiers with names like those of lowered loops stand in these only. -/
structure LoopsPlanted (g : Graph) (root : NodeId) (base : NodeId → Nat) (h : Graph) : Prop where
  planted : ∀ n, Loop g root n → g.size ≤ base n ∧ h.Below root ⟨base n⟩ ∧
    ∃ var, g.name? n = some var ∧ Planted h n var (base n)
  named : ∀ x, h.Below root x → namesVariable (h.kind x) → ∀ name, h.name? x = some name →
    isReserved name → ∃ n var, Loop g root n ∧ g.name? n = some var ∧ Uses n var (base n) name x

/-- Rules behind others go on from what those leave. -/
theorem run_sweep_append {rs' : List GraphRule} {b : Nat} : ∀ {rs : List GraphRule} {g : Graph}
    {a : Nat}, (Rule.sweep root rs).run g = (.ok a, g₁) →
      (Rule.sweep root rs').run g₁ = (.ok b, h) →
        (Rule.sweep root (rs ++ rs')).run g = (.ok (a + b), h)
  | [], g, a, hfirst, hrest => by
    obtain ⟨ha, rfl⟩ := Run.outcome_eq.1 hfirst
    obtain rfl : 0 = a := Except.ok.inj ha
    rw [Nat.zero_add]
    exact hrest
  | r :: rs, g, a, hfirst, hrest => by
    rw [Rule.sweep, Run.run_bind_of_ok Run.run_get] at hfirst
    obtain ⟨fired, t, hnodes, hfirst⟩ := Run.run_bind_eq_ok.1 hfirst
    obtain ⟨more, u, hmore, hsum⟩ := Run.run_bind_eq_ok.1 hfirst
    obtain ⟨ha, hu⟩ := Run.outcome_eq.1 hsum
    have hlater := run_sweep_append (hu ▸ hmore) hrest
    rw [List.cons_append, Rule.sweep, Run.run_bind_of_ok Run.run_get, Run.run_bind_of_ok hnodes,
      Run.run_bind_of_ok hlater, ← Except.ok.inj ha, Nat.add_assoc]
    rfl

/-- A run that ends well is a sweep. -/
theorem sweep_of_run {k : Nat} (hrun : (run root).run g = (.ok k, h)) :
    ∃ fired, (Rule.sweep root rules).run g = (.ok fired, h) := by
  rw [run] at hrun
  obtain ⟨fired, t, hsweep, hrun⟩ := Run.run_bind_eq_ok.1 hrun
  rw [Run.run_bind_of_ok Run.run_get] at hrun
  split at hrun
  · cases (Run.outcome_eq.1 hrun).1
  · obtain rfl := (Run.outcome_eq.1 hrun).2
    exact ⟨fired, hsweep⟩

/-- The rules in front of that for loops leave the loops there, and the program clean. -/
theorem sweep_clean (hp : Parsed g root) (hc : Composed g root) (hu : Unreserved g root) :
    ∃ k g₁, (Rule.sweep root [foldOperators, lowerDotPipe, lowerDotted, collectKeywordArgs]).run g =
        (.ok k, g₁) ∧ Parsed g₁ root ∧ (∀ n, Loop g₁ root n ↔ Loop g root n) ∧
      (g₁.size ≤ 2 ^ 32 → Clean g root g₁) := by
  have hhandles : List.Forall₂ Handles
      [foldOperators, lowerDotPipe, lowerDotted, collectKeywordArgs]
      [.operatorSeq, .dotPipe, .dotted, .kwArg] :=
    .cons handles_foldOperators (.cons handles_lowerDotPipe (.cons handles_lowerDotted
      (.cons handles_collectKeywordArgs .nil)))
  have hkeeps : List.Forall₂ (Keeps root fun g' => g'.size ≤ 2 ^ 32 → Clean g root g')
      [foldOperators, lowerDotPipe, lowerDotted, collectKeywordArgs]
      [.operatorSeq, .dotPipe, .dotted, .kwArg] :=
    .cons (keeps_clean handles_foldOperators drafts_foldOperators silent_foldOperators)
      (.cons (keeps_clean handles_lowerDotPipe drafts_lowerDotPipe silent_lowerDotPipe)
        (.cons (keeps_clean handles_lowerDotted drafts_lowerDotted silent_lowerDotted)
          (.cons (keeps_clean handles_collectKeywordArgs drafts_collectKeywordArgs
            silent_collectKeywordArgs) .nil)))
  obtain ⟨g₁, ns, hsweep, hdone, hns, hclean⟩ := sweep_keeps hhandles hkeeps (by decide) hp
    fun _ => ⟨hc, hu, Nat.le_refl _, fun _ _ => rfl⟩
  refine ⟨_, g₁, hsweep, hdone.parsed, fun n => ?_, hclean⟩
  rw [loop_iff, hdone.tasks, loop_iff, ← and_assoc]
  refine and_iff_left_of_imp fun ⟨_, hf⟩ hmem => ?_
  -- the tasks that are done are of other kinds
  obtain ⟨-, f, hmem, hf'⟩ := (hns n).1 hmem
  obtain rfl : SurfaceKind.forIn = f := Option.some.inj (hf.symm.trans hf')
  simp at hmem

/-- The rule for loops leaves none, and plants a counting loop for each. -/
theorem sweep_loops (hp : Parsed g root)
    (hsmall : g.size ≤ 2 ^ 32 → Composed g root ∧ Unreserved g root) :
    ∃ k h, (Rule.sweep root [lowerForIn]).run g = (.ok k, h) ∧ (∀ n, ¬Loop h root n) ∧
      (h.size ≤ 2 ^ 32 → ∃ base, Planting g root base h) := by
  obtain ⟨h, ns, hsweep, hdone, hns, hplanting⟩ := sweep_keeps (.cons handles_lowerForIn .nil)
    (.cons (keeps_planting g root) .nil) (by decide) hp fun hg =>
      ⟨fun _ => 0, planting_refl (hsmall hg).1 (hsmall hg).2 fun _ => 0⟩
  refine ⟨_, h, hsweep, fun n hn => ?_, hplanting⟩
  obtain ⟨hbelow, hf, hnot⟩ := (hdone.tasks n .forIn).1 (loop_iff.1 hn)
  exact hnot ((hns n).2 ⟨hbelow, .forIn, List.mem_singleton_self _, hf⟩)

/-- A run that ends well makes a counting loop of each loop. -/
theorem loopsPlanted_of_run (hp : Parsed g root) (hc : Composed g root) (hu : Unreserved g root)
    {k : Nat} (hrun : (run root).run g = (.ok k, h)) (hsmall : h.size ≤ 2 ^ 32) :
    ∃ base, LoopsPlanted g root base h := by
  obtain ⟨_, g₁, hfirst, hp₁, hloops, hclean⟩ := sweep_clean hp hc hu
  obtain ⟨_, h', hsecond, hnone, hplanting⟩ := sweep_loops hp₁ fun hg₁ =>
    ⟨(hclean hg₁).composed, (hclean hg₁).unreserved⟩
  obtain ⟨fired, hsweep⟩ := sweep_of_run hrun
  obtain rfl : h' = h :=
    (Prod.mk.inj ((run_sweep_append hfirst hsecond).symm.trans hsweep)).2
  obtain ⟨base, hs⟩ := hplanting hsmall
  have hg₁ := hclean (hs.size.trans hsmall)
  have hname : ∀ n, Loop g root n → g₁.name? n = g.name? n := fun n hn => by
    rw [name?, name?, hg₁.payload n hn.has]
  refine ⟨base, fun n hn => ?_, fun x hx hk name hxname hreserved => ?_⟩
  · obtain ⟨hnew, hbelow, var, hvar, hplanted⟩ := hs.planted n ((hloops n).2 hn) (hnone n)
    exact ⟨hg₁.size.trans hnew, hbelow, var, (hname n hn).symm.trans hvar, hplanted⟩
  · obtain ⟨n, var, hn, -, hvar, huses⟩ := hs.named x hx hk name hxname hreserved
    have hn := (hloops n).1 hn
    exact ⟨n, var, hn, (hname n hn).symm.trans hvar, huses⟩

/-! ## Names in the lowered program -/

namespace LoopsPlanted

variable (hs : LoopsPlanted g root base h) {name : String}
include hs

/-- Only identifiers have names like those of lowered loops. -/
theorem ident_of_isReserved (hx : h.Below root x) (hk : namesVariable (h.kind x))
    (hname : h.name? x = some name) (hreserved : isReserved name) : h.kind x = .expr .ident := by
  obtain ⟨n, var, hn, hvar, huses⟩ := hs.named x hx hk name hname hreserved
  obtain ⟨-, -, var', hvar', hplanted⟩ := hs.planted n hn
  obtain rfl : var' = var := Option.some.inj (hvar'.symm.trans hvar)
  exact (hplanted.of_uses huses).2.1

/-- An identifier with a name of a lowered loop stands in its counting loop. -/
theorem uses_of_isNameOf (hu : Unreserved g root) (hn : Loop g root n) {var : String}
    (hvar : g.name? n = some var) (hname : IsNameOf n name) (hx : h.Below root x)
    (hk : h.kind x = .expr .ident) (hxname : h.name? x = some name) :
    Uses n var (base n) name x := by
  obtain ⟨m, var', hm, hvar', i, hi, rfl⟩ :=
    hs.named x hx (by rw [hk]; rfl) name hxname hname.isReserved
  obtain ⟨name', hcases, hsame⟩ := ident_of_loopNodes (List.mem_of_getElem? hi) rfl
  obtain rfl : name = name' := Payload.str.inj (Prod.mk.inj hsame).2
  obtain rfl : m = n := by
    rcases hcases with hiterator | hcounter | rfl
    · exact IsNameOf.unique (Or.inl hiterator) hname
    · exact IsNameOf.unique (Or.inr hcounter) hname
    · have hfree := hu m hm.1 (by rw [hm.2]; rfl) name hvar'
      rw [hname.isReserved] at hfree
      cases hfree
  obtain rfl : var' = var := Option.some.inj (hvar'.symm.trans hvar)
  exact ⟨i, hi, rfl⟩

end LoopsPlanted

end Lowering

end TypeFlow
