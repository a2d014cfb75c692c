import TypeFlow.Proofs.Inference.Ending
import TypeFlow.Program
import TypeFlow.Reference
import TypeFlow.Settings
/-!
# What the ceiling rejects

The rounds of a run do not depend on its ceiling, which only stops them: a run that comes to rest
under one ceiling does so under every other that its productive rounds stay within, and goes past
all others in the round behind the last that they allow (`Rule.settle_under`). So the ceiling
of an inference tells programs that need many rounds from the others (`run_under_ceiling`), and not
those that never come to rest: there are none (`comes_to_rest`), but a long sum needs a round for
each operator (`ceiling_rejects_sum`).
-/

namespace TypeFlow

/-! ## Runs under other ceilings -/

namespace Rule

variable {σ π : Type} {commit : Commit σ π} {rules : List (Rule σ π)} {nodes : List NodeId}
  {s s' : σ}

/-- A run that comes to rest under one ceiling either does so under another, or goes past it in
the first round that is too many. -/
theorem settle_under : ∀ {left : Nat} {stats stats' : Stats} {s : σ},
    (settle commit rules nodes left stats).run s = (.ok stats', s') →
      stats.productive ≤ stats'.productive ∧ ∀ other,
        (stats'.productive ≤ stats.productive + other →
          (settle commit rules nodes other stats).run s = (.ok stats', s')) ∧
        (stats.productive + other < stats'.productive → ∃ rule node t,
          (settle commit rules nodes other stats).run s =
            (.error (.diverged rule node (stats.rounds + other + 1)), t))
  | left, stats, stats', s, h => by
    rw [settle, Run.run_bind_eq_ok] at h
    obtain ⟨done, t, hround, h⟩ := h
    cases hl : done.last? with
    | none =>
      have hquiet := h
      obtain ⟨rfl, -⟩ : { stats with rounds := stats.rounds + 1 } = stats' ∧ t = s' := by
        simpa [hl] using h
      refine ⟨Nat.le_refl _, fun other => ⟨fun _ => ?_, fun hlt => ?_⟩⟩
      · rw [settle, Run.run_bind_of_ok hround]
        simpa [hl] using hquiet
      · exact absurd hlt (by simp)
    | some last =>
      cases left with
      | zero => simp [hl] at h
      | succ left =>
        simp only [hl] at h
        obtain ⟨hle, hothers⟩ := settle_under h
        dsimp only at hle
        refine ⟨by omega, fun other => ?_⟩
        rw [settle, Run.run_bind_of_ok hround]
        simp only [hl]
        cases other with
        | zero => exact ⟨fun hwithin => by omega, fun _ => ⟨last.1, last.2, t, by simp⟩⟩
        | succ other =>
          obtain ⟨hwithin, hpast⟩ := hothers other
          dsimp only at hwithin hpast
          refine ⟨fun h => hwithin (by omega), fun h => ?_⟩
          obtain ⟨rule, node, u, hu⟩ := hpast (by omega)
          exact ⟨rule, node, u, by rw [hu, Nat.add_right_comm stats.rounds 1 other, Nat.add_assoc
            stats.rounds other 1]⟩

end Rule

namespace Inference

open Program

variable {g : Graph} {root : NodeId} {seeds t : BoundsTable} {stats : Stats} {allow : Bool}
  {ceiling other : Nat}

theorem settled_under (h : settled g root ceiling seeds = .ok (stats, t)) :
    (stats.productive ≤ other → settled g root other seeds = .ok (stats, t)) ∧
      (other < stats.productive → ∃ rule node,
        settled g root other seeds = .error (.diverged rule node (other + 1))) := by
  obtain ⟨-, hothers⟩ := Rule.settle_under (run_of_settled h)
  obtain ⟨hwithin, hpast⟩ := hothers other
  simp only [Nat.zero_add] at hwithin hpast
  constructor
  · intro hle
    simp only [settled, Rule.fixpoint, hwithin hle]
  · intro hlt
    obtain ⟨rule, node, u, hu⟩ := hpast hlt
    exact ⟨rule, node, by simp only [settled, Rule.fixpoint, hu]⟩

/-- On a seeded program the rules come to rest in a table at which none of them asks for a change,
the same under every ceiling that their productive rounds stay within. -/
theorem comes_to_rest (hg : Resolved g root)
    (hseeds : seeded (withReturnSlots g root) root allow = .ok seeds) :
    ∃ stats t, Settled (withReturnSlots g root) root t ∧ ∀ ceiling ≥ stats.productive,
      settled (withReturnSlots g root) root ceiling seeds = .ok (stats, t) := by
  have hslots := resolved_withReturnSlots hg
  rcases hsettled : settled (withReturnSlots g root) root
    (seeds.room (allLeaves (withReturnSlots g root))) seeds with fault | ⟨stats, t⟩
  · -- the rules could only go past this ceiling, and it leaves them room
    have hdiverged := diverged_of_settled hg hseeds hsettled
    rw [settled_not_diverged (bounded_of_seeded hseeds) (Nat.le_refl _) hsettled] at hdiverged
    cases hdiverged
  · exact ⟨stats, t, settled_of_seeded hslots hseeds hsettled,
      fun _ hceiling => (settled_under hsettled).1 hceiling⟩

/-- The productive rounds of an inference whose rules come to rest under a ceiling. -/
def productiveRounds (g : Graph) (root : NodeId) (ceiling : Nat) (allow : Bool) : Nat :=
  let g := withReturnSlots g root
  match seeded g root allow with
  | .error _ => 0
  | .ok seeds =>
    match settled g root ceiling seeds with
    | .error _ => 0
    | .ok (stats, _) => stats.productive

theorem stats_of_ok (hseeds : seeded (withReturnSlots g root) root allow = .ok seeds)
    (hsettled : settled (withReturnSlots g root) root ceiling seeds = .ok (stats, t))
    {report : Report} (h : ((run root ceiling allow).run g).1 = .ok report) :
    report.stats = stats := by
  rw [run_eq, hseeds] at h
  simp only [hsettled] at h
  split at h
  · cases h
  · rw [← Except.ok.inj h]

/-- An inference goes past a ceiling below the productive rounds that it makes under another. -/
theorem diverged_of_lt (hseeds : seeded (withReturnSlots g root) root allow = .ok seeds)
    (hsettled : settled (withReturnSlots g root) root ceiling seeds = .ok (stats, t))
    (hlt : other < stats.productive) : ∃ rule node,
      ((run root other allow).run g).1 = .error (.diverged rule node (other + 1)) := by
  obtain ⟨rule, node, hother⟩ := (settled_under hsettled).2 hlt
  refine ⟨rule, node, ?_⟩
  rw [run_eq, hseeds]
  simp only [hother]

/-- An inference on a resolved program that does not go past its ceiling stops at a declared type,
or its rules come to rest. -/
theorem exists_settled (hg : Resolved g root) (hdiverged : ∀ rule node rounds,
      ((run root ceiling allow).run g).1 ≠ .error (.diverged rule node rounds)) :
    (∃ fault, seeded (withReturnSlots g root) root allow = .error fault) ∨
      ∃ seeds stats t, seeded (withReturnSlots g root) root allow = .ok seeds ∧
        settled (withReturnSlots g root) root ceiling seeds = .ok (stats, t) := by
  rcases hseeds : seeded (withReturnSlots g root) root allow with fault | seeds
  · exact Or.inl ⟨fault, rfl⟩
  · obtain ⟨stats, t, -, hrests⟩ := comes_to_rest hg hseeds
    have hceiling : stats.productive ≤ ceiling := by
      by_contra hlt
      obtain ⟨rule, node, herror⟩ :=
        diverged_of_lt hseeds (hrests _ (Nat.le_refl _)) (Nat.not_le.1 hlt)
      exact hdiverged _ _ _ herror
    exact Or.inr ⟨seeds, stats, t, rfl, hrests ceiling hceiling⟩

/-- On a resolved program, an inference that does not go past its ceiling has the same outcome
under every other ceiling that its productive rounds stay within, and goes past all others. -/
theorem run_under_ceiling (hg : Resolved g root) (hdiverged : ∀ rule node rounds,
      ((run root ceiling allow).run g).1 ≠ .error (.diverged rule node rounds)) (other : Nat) :
    (∀ report, ((run root ceiling allow).run g).1 = .ok report →
        report.stats.productive = productiveRounds g root ceiling allow) ∧
      (productiveRounds g root ceiling allow ≤ other →
        (run root other allow).run g = (run root ceiling allow).run g) ∧
      (other < productiveRounds g root ceiling allow → ∃ rule node,
        ((run root other allow).run g).1 = .error (.diverged rule node (other + 1))) := by
  rcases exists_settled hg hdiverged with ⟨fault, hseeds⟩ | ⟨seeds, stats, t, hseeds, hsettled⟩
  · simp [run_eq, productiveRounds, hseeds]
  · have hrounds : productiveRounds g root ceiling allow = stats.productive := by
      simp only [productiveRounds, hseeds, hsettled]
    rw [hrounds]
    refine ⟨fun report h => by rw [stats_of_ok hseeds hsettled h], fun hle => ?_,
      diverged_of_lt hseeds hsettled⟩
    rw [run_eq, run_eq, hseeds]
    simp only [hsettled, (settled_under hsettled).1 hle]

/-! ## A long sum -/

/-- A sum of ones from the left, with a number of operators. -/
def sum : Nat → Build NodeId
  | 0 => Program.int 1
  | operators + 1 => do Program.binary .add (← sum operators) (← Program.int 1)

/-- A variable that holds a sum. -/
def sumSource (operators : Nat) : Build Unit := do
  let _ ← Program.function "main"
  let _ ← Program.varInit ⟨2⟩ "x" none (← sum operators)

/-- The program with its references tied, with more operators than the standard ceiling allows. -/
def longSum : Graph :=
  ((Reference.run Program.root 20).run ((sumSource 21).run Program.empty).2).2

theorem resolved_longSum : Resolved longSum Program.root := by decide +kernel

theorem run_longSum : ((run Program.root 100 true).run longSum).1 =
    .ok ⟨⟨22, 21, 65⟩, 45, ⟨46, 0, 1⟩⟩ := by
  decide +kernel

theorem not_diverged_longSum (rule : String) (node : NodeId) (rounds : Nat) :
    ((run Program.root 100 true).run longSum).1 ≠ .error (.diverged rule node rounds) := by
  rw [run_longSum]
  nofun

/-- The sum of twenty-two ones is inferred in twenty-one productive rounds. -/
theorem run_under_ceiling_longSum : Resolved longSum Program.root ∧
    (∀ rule node rounds,
      ((run Program.root 100 true).run longSum).1 ≠ .error (.diverged rule node rounds)) ∧
    productiveRounds longSum Program.root 100 true = 21 ∧
    (run Program.root 21 true).run longSum = (run Program.root 100 true).run longSum := by
  obtain ⟨hreport, hwithin, -⟩ :=
    run_under_ceiling resolved_longSum not_diverged_longSum 21
  have hrounds := (hreport _ run_longSum).symm
  exact ⟨resolved_longSum, not_diverged_longSum, hrounds, hwithin (le_of_eq hrounds)⟩

/-- The standard ceiling rejects a sum of twenty-two ones, though inference comes to rest on it. -/
theorem ceiling_rejects_sum : Resolved longSum Program.root ∧ Settings.standard.maxRounds < 100 ∧
    (∀ rule node rounds,
      ((run Program.root 100 true).run longSum).1 ≠ .error (.diverged rule node rounds)) ∧
    ∃ rule node, ((run Program.root Settings.standard.maxRounds true).run longSum).1 =
      .error (.diverged rule node 21) := by
  refine ⟨resolved_longSum, by decide, not_diverged_longSum, ?_⟩
  rcases exists_settled resolved_longSum not_diverged_longSum with
    ⟨fault, hseeds⟩ | ⟨seeds, stats, t, hseeds, hsettled⟩
  · have hok := run_longSum
    rw [run_eq, hseeds] at hok
    cases hok
  · refine diverged_of_lt hseeds hsettled ?_
    rw [← stats_of_ok hseeds hsettled run_longSum]
    decide

end Inference

end TypeFlow
