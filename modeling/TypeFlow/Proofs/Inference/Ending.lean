import TypeFlow.Proofs.Coloring.Verdict
import TypeFlow.Proofs.Flow.Seeds
import TypeFlow.Proofs.Inference.Colored
import TypeFlow.Proofs.Inference.Convergence
import TypeFlow.Proofs.Rule.Course
/-!
# How an inference ends

On a resolved program an inference that does not go past its ceiling `Ends` in one of three ways:
at a declared type that denotes no set, at a node without a consistent type, or well
(`ends_of_run`). In the last two cases the rules came to rest above the seeds (`under_settled`), and
the table in which they did decides which of the two it is.
-/

namespace TypeFlow

open TypeSet Program

namespace Inference

variable {g : Graph} {root n : NodeId} {t seeds : BoundsTable} {allow : Bool}
  {ceiling : Nat} {stats : Stats}

/-! ## Coming to rest -/

theorem canonical_seedRequests {requests : List Request}
    (h : Flow.seedRequests g root allow (typable g root) = .ok requests) :
    ∀ q ∈ requests, q.Canonical := fun q hq =>
  (Flow.over_seedRequests (leafFamily_true g) (fun _ _ => trivial) (fun _ _ => trivial) h q hq).1

/-- Firings only climb. -/
theorem Tidy.climbs (hg : Resolved g root) (ht : Tidy g root t) {methods : List NodeId}
    {r : FlowRule} (hr : r ∈ Flow.rules g methods) (hn : g.Below root n) {t' : BoundsTable}
    (h : Rule.Fires Flow.commit r.toRule n t t') : t.Under t' := by
  have hcanonical : ∀ requests, r.asks t n = .ok requests → ∀ q ∈ requests, q.Canonical :=
    fun requests hasks q hq => (ht.requestsOver hg hr hn hasks q hq).1
  obtain ⟨-, requests, hasks, -, rfl⟩ := FlowRule.eq_result_of_fires ht.sound hcanonical h
  exact (Update.climbs_result ht.sound
    (Update.fits_ofRequests ht.sound (hcanonical requests hasks))).under

/-- The rules come to rest above the seeds. -/
theorem under_settled (hg : Resolved g root) (hseeds : Tidy g root seeds)
    (h : settled g root ceiling seeds = .ok (stats, t)) : seeds.Under t := by
  refine (Rule.invariant_of_fixpoint (I := fun t => Tidy g root t ∧ seeds.Under t)
    (fun r hr n hn s s' hs hfires => ?_) ⟨hseeds, .refl seeds⟩ (run_of_settled h)).2
  obtain ⟨r', hr', rfl⟩ := List.mem_map.1 hr
  have hbelow := (Graph.mem_reachable.1 hn).1
  exact ⟨hs.1.fires hg hr' hbelow hfires, hs.2.trans (hs.1.climbs hg hr' hbelow hfires)⟩

/-- Once a program is seeded, its declarations are known to denote sets. -/
theorem declared_of_seeded (hg : Resolved g root)
    (hseeds : seeded (withReturnSlots g root) root allow = .ok seeds) :
    Declared (withReturnSlots g root) root := by
  obtain ⟨requests, hrequests, -⟩ := seeded_eq_ok.1 hseeds
  exact Flow.declared_of_seedRequests (resolved_withReturnSlots hg)
    (fun f hf hkind => hasChild_withReturnSlots hg hf hkind) hrequests

/-- On a seeded program the rules stop without coming to rest only for want of rounds. -/
theorem diverged_of_settled (hg : Resolved g root)
    (hseeded : seeded (withReturnSlots g root) root allow = .ok seeds) {fault : Fault}
    (h : settled (withReturnSlots g root) root ceiling seeds = .error fault) :
    fault.isDiverged := by
  have hslots := resolved_withReturnSlots hg
  have hdeclared := declared_of_seeded hg hseeded
  have hseeds := tidy_of_seeded hslots hseeded
  generalize withReturnSlots g root = g at *
  obtain ⟨t, hrun⟩ := run_of_unsettled h
  refine Rule.diverged_of_settle (I := Tidy g root) (fun p hp s s' hs hfires => ?_)
    (fun p hp s fault s' hs hfails => ?_) hseeds hrun
  · obtain ⟨hr, hn⟩ := Rule.mem_tries.1 hp
    obtain ⟨r, hr, hrule⟩ := List.mem_map.1 hr
    exact hs.fires hslots hr (Graph.mem_reachable.1 hn).1 (hrule ▸ hfires)
  · obtain ⟨hr, hn⟩ := Rule.mem_tries.1 hp
    obtain ⟨r, hr, hrule⟩ := List.mem_map.1 hr
    have hbelow := (Graph.mem_reachable.1 hn).1
    rw [← hrule] at hfails
    obtain ⟨happlies, herror⟩ := FlowRule.asks_of_fails hs.sound
      (fun requests hasks q hq => (hs.requestsOver hslots hr hbelow hasks q hq).1) hfails
    obtain ⟨requests, hasks⟩ :=
      Flow.succeeds_asks hslots hbelow hdeclared hs.sound hs.leaves hr happlies
    rw [hasks] at herror
    cases herror

/-! ## Outcomes -/

/-- How an inference ends that does not go past its ceiling: it stops at a declared type that
denotes no set, or comes to rest and colors the program if every typable node is colorable. -/
inductive Ends (g : Graph) (root : NodeId) (ceiling : Nat) (allow : Bool) :
    Except Fault Report → Graph → Prop
  | badType {fault : Fault} {g' : Graph} (hseeds : seeded g root allow = .error fault)
      (hbad : BadType g root fault) : Ends g root ceiling allow (.error fault) g'
  | inconsistent {fault : Fault} {g' : Graph} {seeds t : BoundsTable} {stats : Stats}
      (hseeds : seeded g root allow = .ok seeds)
      (hsettled : settled g root ceiling seeds = .ok (stats, t))
      (hfault : fault.isInconsistent) (hno : ∃ n ∈ typable g root, ¬Palette.Colorable g t n) :
      Ends g root ceiling allow (.error fault) g'
  | colored {report : Report} {g' : Graph} {seeds t : BoundsTable} {stats : Stats}
      (hseeds : seeded g root allow = .ok seeds)
      (hsettled : settled g root ceiling seeds = .ok (stats, t))
      (hall : ∀ n ∈ typable g root, Palette.Colorable g t n) (hcolored : Colored g root t g') :
      Ends g root ceiling allow (.ok report) g'

/-- Coloring from a table in order ends well if all typable nodes are colorable, and otherwise at
one without a consistent type. -/
theorem verdict_of_colorAll (hg : Resolved g root) (ht : Tidy g root t) {g' : Graph}
    {outcome : Except Fault ColorStats}
    (h : (Graph.colorAll t (typable g root)).run g = (outcome, g')) :
    ((∀ n ∈ typable g root, Palette.Colorable g t n) ∧ ∃ colors, outcome = .ok colors) ∨
      ((∃ n ∈ typable g root, ¬Palette.Colorable g t n) ∧
        ∃ fault, outcome = .error fault ∧ fault.isInconsistent) := by
  have hnodes : ∀ n ∈ typable g root, g.has n ∧ (t.slot? n).isSome := fun n hn => by
    obtain ⟨hbelow, hkind⟩ := Graph.mem_reachable.1 hn
    exact ⟨hg.has_below hbelow, ht.bound hbelow hkind⟩
  rw [Graph.run_colorAll] at h
  rcases Palette.verdict_of_forM ht.over hg.kept (Palette.faithful_ofGraph hg.kept) hnodes with
    ⟨hall, p, hp⟩ | ⟨hno, fault, p, hfault, hp⟩
  · rw [hp] at h
    exact Or.inl ⟨hall, _, (Run.outcome_eq.1 h).1.symm⟩
  · rw [hp] at h
    exact Or.inr ⟨hno, fault, (Run.outcome_eq.1 h).1.symm, hfault⟩

/-- On a resolved program an inference that does not go past its ceiling ends in one of three
ways. -/
theorem ends_of_run {g' : Graph} {outcome : Except Fault Report} (hg : Resolved g root)
    (h : (run root ceiling allow).run g = (outcome, g'))
    (hdiverged : ∀ fault, outcome = .error fault → fault.isDiverged = false) :
    Ends (withReturnSlots g root) root ceiling allow outcome g' := by
  have hslots := resolved_withReturnSlots hg
  rw [run_eq] at h
  cases hseeds : seeded (withReturnSlots g root) root allow with
  | error fault =>
    rw [hseeds] at h
    obtain ⟨rfl, rfl⟩ := Run.outcome_eq.1 h
    exact .badType hseeds (Flow.badType_of_seedRequests hslots (seeded_eq_error.1 hseeds))
  | ok seeds =>
    rw [hseeds] at h
    dsimp only at h
    rcases hsettled : settled (withReturnSlots g root) root ceiling seeds with fault | ⟨stats, t⟩
    · -- the declarations were read, so that only the ceiling could stop the rules
      rw [hsettled] at h
      obtain ⟨rfl, rfl⟩ := Run.outcome_eq.1 h
      have hd := diverged_of_settled hg hseeds hsettled
      rw [hdiverged _ rfl] at hd
      cases hd
    · rw [hsettled] at h
      dsimp only at h
      have ht := settled_of_seeded hslots hseeds hsettled
      rcases hcolors : (Graph.colorAll t (typable (withReturnSlots g root) root)).run
        (withReturnSlots g root) with ⟨fault | colors, g''⟩
      · rw [hcolors] at h
        obtain ⟨rfl, rfl⟩ := Run.outcome_eq.1 h
        rcases verdict_of_colorAll hslots ht.toTidy hcolors with
          ⟨-, colors, hok⟩ | ⟨hno, fault', heq, hfault⟩
        · cases hok
        · obtain rfl := Except.error.inj heq
          exact .inconsistent hseeds hsettled hfault hno
      · rw [hcolors] at h
        obtain ⟨rfl, rfl⟩ := Run.outcome_eq.1 h
        rcases verdict_of_colorAll hslots ht.toTidy hcolors with ⟨hall, -⟩ | ⟨-, fault, heq, -⟩
        · exact .colored hseeds hsettled hall (colored_of_colorAll hslots ht.toTidy hcolors)
        · cases heq

/-- How the color of a node reads. -/
def reading? (g : Graph) (n : NodeId) : Option String := (g.coloredType? n).map g.describeType

theorem Colored.reading {g' : Graph} (hcolored : Colored g root t g') (ht : Tidy g root t)
    (hn : g.Below root n) (hkind : (g.kind n).isTypable) :
    reading? g' n = some (Palette.boundsText g t n) := by
  obtain ⟨k, hk, hfits⟩ := hcolored.color n hn hkind
  rw [reading?, hk, Option.map_some, Palette.describeType_of_fits ht.over hcolored.grown hfits]

end Inference

end TypeFlow
