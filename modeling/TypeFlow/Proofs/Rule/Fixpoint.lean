import TypeFlow.Proofs.Local
import TypeFlow.Rule.Fixpoint
/-!
# What a run of rounds does

A round tries every rule at every node (`tries`). `Pass` is a list of tries that all succeed, with
the number of them that fire, and `Unrolled` is a run cut into such passes. A run that ends well
ends in a quiet pass (`quiet_of_fixpoint`) and keeps every invariant of the firings
(`invariant_of_fixpoint`). A run whose firings decrease a measure does not go past a ceiling above
it (`fixpoint_not_diverged`).
-/

namespace TypeFlow

namespace Rule

variable {σ π : Type} {commit : Commit σ π} {r : Rule σ π} {rules : List (Rule σ π)}
  {n : NodeId} {nodes : List NodeId} {s s' : σ} {fault : Fault}

/-! ## One try -/

/-- A rule fires at a node, and its patch takes the one state to the other. -/
def Fires (commit : Commit σ π) (r : Rule σ π) (n : NodeId) (s s' : σ) : Prop :=
  ∃ p, r.fire? s n = .ok (some p) ∧ (commit p).run s = (.ok (), s')

/-- A rule fails at a node, itself or in the commit of its patch, and leaves the second state. -/
def Fails (commit : Commit σ π) (r : Rule σ π) (n : NodeId) (s : σ) (fault : Fault) (s' : σ) :
    Prop :=
  (r.fire? s n = .error fault ∧ s' = s) ∨
    ∃ p, r.fire? s n = .ok (some p) ∧ (commit p).run s = (.error fault, s')

theorem run_tryAt_eq_ok {fired : Bool} : (r.tryAt commit n).run s = (.ok fired, s') ↔
    (fired = false ∧ r.fire? s n = .ok none ∧ s' = s) ∨
      (fired = true ∧ Fires commit r n s s') := by
  rw [tryAt, Run.run_bind_of_ok Run.run_get]
  rcases hfire : r.fire? s n with fault | _ | p
  · simp [Fires, hfire]
  · simp [Fires, hfire, eq_comm]
  · simp only [Run.run_bind_eq_ok, Fires, hfire]
    cases fired with
    | false => simp
    | true => exact ⟨fun ⟨_, _, hp, h⟩ => Or.inr ⟨rfl, p, rfl, by simp_all⟩, fun h => by simp_all⟩

theorem run_tryAt_eq_error :
    (r.tryAt commit n).run s = (.error fault, s') ↔ Fails commit r n s fault s' := by
  rw [tryAt, Run.run_bind_of_ok Run.run_get]
  rcases hfire : r.fire? s n with fault' | _ | p
  · simp [Fails, hfire, eq_comm]
  · simp [Fails, hfire]
  · simp only [Run.run_bind_eq_error, Fails, hfire]
    simp

/-! ## A list of tries -/

/-- Tries in order that all succeed, and how many of them fire. -/
inductive Pass (commit : Commit σ π) : List (Rule σ π × NodeId) → σ → Nat → σ → Prop
  | done (s : σ) : Pass commit [] s 0 s
  | quiet {r : Rule σ π} {n : NodeId} {ps : List (Rule σ π × NodeId)} {s s' : σ} {k : Nat}
      (h : r.fire? s n = .ok none) (rest : Pass commit ps s k s') :
      Pass commit ((r, n) :: ps) s k s'
  | fires {r : Rule σ π} {n : NodeId} {ps : List (Rule σ π × NodeId)} {s s' s'' : σ} {k : Nat}
      (h : Fires commit r n s s') (rest : Pass commit ps s' k s'') :
      Pass commit ((r, n) :: ps) s (k + 1) s''

namespace Pass

variable {ps qs : List (Rule σ π × NodeId)} {k l : Nat} {s'' : σ}

theorem append (h : Pass commit ps s k s') (h' : Pass commit qs s' l s'') :
    Pass commit (ps ++ qs) s (k + l) s'' := by
  induction h with
  | done => simpa using h'
  | quiet hq _ ih => exact .quiet hq (ih h')
  | fires hf _ ih =>
    rw [Nat.add_right_comm]
    exact .fires hf (ih h')

/-- A pass in which nothing fires is quiet at every try and stays where it is. -/
theorem quiet_of_zero (h : Pass commit ps s 0 s') :
    s' = s ∧ ∀ p ∈ ps, p.1.fire? s p.2 = .ok none := by
  induction ps generalizing s with
  | nil =>
    cases h
    exact ⟨rfl, by simp⟩
  | cons p ps ih =>
    cases h with
    | quiet hq rest =>
      obtain ⟨rfl, hrest⟩ := ih rest
      exact ⟨rfl, by simpa using ⟨hq, fun r n hmem => hrest (r, n) hmem⟩⟩

/-- What every firing preserves, a pass preserves. -/
theorem invariant {I : σ → Prop} (hI : ∀ p ∈ ps, ∀ s s', I s → Fires commit p.1 p.2 s s' → I s')
    (h : Pass commit ps s k s') (hs : I s) : I s' := by
  induction h with
  | done => exact hs
  | quiet _ _ ih => exact ih (fun p hp => hI p (List.mem_cons_of_mem _ hp)) hs
  | fires hf _ ih =>
    exact ih (fun p hp => hI p (List.mem_cons_of_mem _ hp)) (hI _ List.mem_cons_self _ _ hs hf)

/-- What every firing decreases, a pass decreases by the number of its firings. -/
theorem measure {I : σ → Prop} {μ : σ → Nat}
    (hI : ∀ p ∈ ps, ∀ s s', I s → Fires commit p.1 p.2 s s' → I s' ∧ μ s' < μ s)
    (h : Pass commit ps s k s') (hs : I s) : μ s' + k ≤ μ s := by
  induction h with
  | done => exact Nat.le_refl _
  | quiet _ _ ih => exact ih (fun p hp => hI p (List.mem_cons_of_mem _ hp)) hs
  | fires hf _ ih =>
    obtain ⟨hs', hlt⟩ := hI _ List.mem_cons_self _ _ hs hf
    have := ih (fun p hp => hI p (List.mem_cons_of_mem _ hp)) hs'
    omega

end Pass

/-! ## A round -/

/-- The tries of a round: every rule, in order, at every node, in order. -/
def tries (rules : List (Rule σ π)) (nodes : List NodeId) : List (Rule σ π × NodeId) :=
  rules.flatMap fun r => nodes.map fun n => (r, n)

theorem mem_tries : (r, n) ∈ tries rules nodes ↔ r ∈ rules ∧ n ∈ nodes := by
  simp only [tries, List.mem_flatMap, List.mem_map, Prod.mk.injEq]
  constructor
  · rintro ⟨r', hr, n', hn, rfl, rfl⟩
    exact ⟨hr, hn⟩
  · rintro ⟨hr, hn⟩
    exact ⟨r, hr, n, hn, rfl, rfl⟩

/-- What a stretch of a round adds to its record: the last firing is known exactly if one was. -/
def Adds (done done' : Round) (k : Nat) : Prop := k = 0 ∧ done' = done ∨ 0 < k ∧ done'.last?.isSome

theorem Adds.trans {a b c : Round} {k l : Nat} (h : Adds a b k) (h' : Adds b c l) :
    Adds a c (k + l) := by
  rcases h with ⟨rfl, rfl⟩ | ⟨hk, hb⟩
  · simpa using h'
  · rcases h' with ⟨rfl, rfl⟩ | ⟨hl, hc⟩
    · exact Or.inr ⟨hk, hb⟩
    · exact Or.inr ⟨by omega, hc⟩

theorem pass_of_alongNodes : ∀ {nodes : List NodeId} {done done' : Round} {s : σ},
    (r.alongNodes commit nodes done).run s = (.ok done', s') →
      ∃ k, Pass commit (nodes.map fun n => (r, n)) s k s' ∧ Adds done done' k
  | [], done, done', s, h => by
    obtain ⟨rfl, rfl⟩ : done = done' ∧ s = s' := by simpa [alongNodes] using h
    exact ⟨0, .done _, Or.inl ⟨rfl, rfl⟩⟩
  | n :: ns, done, done', s, h => by
    rw [alongNodes] at h
    obtain ⟨fired, t, htry, hrest⟩ := Run.run_bind_eq_ok.1 h
    rcases run_tryAt_eq_ok.1 htry with ⟨rfl, hq, rfl⟩ | ⟨rfl, hf⟩
    · obtain ⟨k, hpass, hadds⟩ := pass_of_alongNodes hrest
      exact ⟨k, .quiet hq hpass, hadds⟩
    · obtain ⟨k, hpass, hadds⟩ := pass_of_alongNodes hrest
      refine ⟨k + 1, .fires hf hpass, Or.inr ⟨by omega, ?_⟩⟩
      rcases hadds with ⟨-, rfl⟩ | ⟨-, hlast⟩
      · rfl
      · exact hlast

theorem pass_of_alongRules : ∀ {rules : List (Rule σ π)} {done done' : Round} {s : σ},
    (alongRules commit nodes rules done).run s = (.ok done', s') →
      ∃ k, Pass commit (tries rules nodes) s k s' ∧ Adds done done' k
  | [], done, done', s, h => by
    obtain ⟨rfl, rfl⟩ : done = done' ∧ s = s' := by simpa [alongRules] using h
    exact ⟨0, .done _, Or.inl ⟨rfl, rfl⟩⟩
  | r :: rs, done, done', s, h => by
    rw [alongRules] at h
    obtain ⟨mid, t, hnodes, h⟩ := Run.run_bind_eq_ok.1 h
    obtain ⟨k, hpass, hadds⟩ := pass_of_alongNodes hnodes
    obtain ⟨l, hpass', hadds'⟩ := pass_of_alongRules h
    exact ⟨k + l, hpass.append hpass', hadds.trans hadds'⟩

/-- A round that ends well is a pass, and it names a firing exactly if there was one. -/
theorem pass_of_round {done : Round} (h : (round commit rules nodes).run s = (.ok done, s')) :
    ∃ k, Pass commit (tries rules nodes) s k s' ∧ (done.last? = none ↔ k = 0) := by
  obtain ⟨k, hpass, hadds⟩ := pass_of_alongRules h
  refine ⟨k, hpass, ?_⟩
  rcases hadds with ⟨rfl, rfl⟩ | ⟨hk, hlast⟩
  · simp
  · constructor
    · intro hnone
      simp [hnone] at hlast
    · omega

/-- A round that stops does so at a try that fails, after a pass over those before. -/
theorem fails_of_alongNodes : ∀ {nodes : List NodeId} {done : Round} {s : σ},
    (r.alongNodes commit nodes done).run s = (.error fault, s') →
      ∃ (ps qs : List (Rule σ π × NodeId)) (n : NodeId) (k : Nat) (t : σ),
        nodes.map (fun n => (r, n)) = ps ++ (r, n) :: qs ∧ Pass commit ps s k t ∧
          Fails commit r n t fault s'
  | [], done, s, h => by simp [alongNodes] at h
  | n :: ns, done, s, h => by
    rw [alongNodes, Run.run_bind_eq_error] at h
    rcases h with h | ⟨fired, t, htry, hrest⟩
    · exact ⟨[], ns.map fun n => (r, n), n, 0, s, rfl, .done s, run_tryAt_eq_error.1 h⟩
    · rcases run_tryAt_eq_ok.1 htry with ⟨rfl, hq, rfl⟩ | ⟨rfl, hf⟩
      · obtain ⟨ps, qs, m, k, u, hsplit, hpass, hfails⟩ := fails_of_alongNodes hrest
        exact ⟨(r, n) :: ps, qs, m, k, u, by simp [hsplit], .quiet hq hpass, hfails⟩
      · obtain ⟨ps, qs, m, k, u, hsplit, hpass, hfails⟩ := fails_of_alongNodes hrest
        exact ⟨(r, n) :: ps, qs, m, k + 1, u, by simp [hsplit], .fires hf hpass, hfails⟩

theorem fails_of_alongRules : ∀ {rules : List (Rule σ π)} {done : Round} {s : σ},
    (alongRules commit nodes rules done).run s = (.error fault, s') →
      ∃ (ps qs : List (Rule σ π × NodeId)) (p : Rule σ π × NodeId) (k : Nat) (t : σ),
        tries rules nodes = ps ++ p :: qs ∧ Pass commit ps s k t ∧
          Fails commit p.1 p.2 t fault s'
  | [], done, s, h => by simp [alongRules] at h
  | r :: rs, done, s, h => by
    have htries : tries (r :: rs) nodes = (nodes.map fun n => (r, n)) ++ tries rs nodes := rfl
    rw [alongRules, Run.run_bind_eq_error] at h
    rcases h with h | ⟨mid, t, hnodes, h⟩
    · obtain ⟨ps, qs, n, k, t, hsplit, hpass, hfails⟩ := fails_of_alongNodes h
      exact ⟨ps, qs ++ tries rs nodes, (r, n), k, t, by simp [htries, hsplit], hpass, hfails⟩
    · obtain ⟨k, hpass, -⟩ := pass_of_alongNodes hnodes
      obtain ⟨ps, qs, p, l, u, hsplit, hpass', hfails⟩ := fails_of_alongRules h
      exact ⟨(nodes.map fun n => (r, n)) ++ ps, qs, p, k + l, u, by simp [htries, hsplit],
        hpass.append hpass', hfails⟩

/-! ## The run -/

/-- A run of rounds of which only so many may fire: the first round stops at a try that fails, finds
nothing to do, is one too many, or is followed by a run that may fire in one round less. -/
inductive Unrolled (commit : Commit σ π) (rules : List (Rule σ π)) (nodes : List NodeId) :
    Nat → σ → Except Fault Stats → σ → Prop
  | stops {left k : Nat} {s t s' : σ} {fault : Fault} {ps qs : List (Rule σ π × NodeId)}
      {p : Rule σ π × NodeId} (hsplit : tries rules nodes = ps ++ p :: qs)
      (hpass : Pass commit ps s k t) (hfails : Fails commit p.1 p.2 t fault s') :
      Unrolled commit rules nodes left s (.error fault) s'
  | rests {left : Nat} {s : σ} {stats : Stats}
      (hquiet : ∀ p ∈ tries rules nodes, p.1.fire? s p.2 = .ok none) :
      Unrolled commit rules nodes left s (.ok stats) s
  | overruns {k rounds : Nat} {s s' : σ} {rule : String} {node : NodeId}
      (hpass : Pass commit (tries rules nodes) s (k + 1) s') :
      Unrolled commit rules nodes 0 s (.error (.diverged rule node rounds)) s'
  | goesOn {left k : Nat} {s t s' : σ} {outcome : Except Fault Stats}
      (hpass : Pass commit (tries rules nodes) s (k + 1) t)
      (rest : Unrolled commit rules nodes left t outcome s') :
      Unrolled commit rules nodes (left + 1) s outcome s'

theorem unrolled_settle : ∀ (left : Nat) (stats : Stats) (s : σ), Unrolled commit rules nodes left s
    ((settle commit rules nodes left stats).run s).1
    ((settle commit rules nodes left stats).run s).2
  | left, stats, s => by
    rw [settle, Run.run_bind]
    rcases hround : (round commit rules nodes).run s with ⟨fault | done, t⟩
    · obtain ⟨ps, qs, p, k, u, hsplit, hpass, hfails⟩ := fails_of_alongRules hround
      exact .stops hsplit hpass hfails
    · obtain ⟨k, hpass, hlast⟩ := pass_of_round hround
      dsimp only
      cases hl : done.last? with
      | none =>
        obtain rfl := hlast.1 hl
        obtain ⟨rfl, hquiet⟩ := hpass.quiet_of_zero
        exact .rests hquiet
      | some last =>
        have hk : k ≠ 0 := fun hk => by simp [hlast.2 hk] at hl
        obtain ⟨k, rfl⟩ := Nat.exists_eq_succ_of_ne_zero hk
        cases left with
        | zero => exact .overruns hpass
        | succ left => exact .goesOn hpass (unrolled_settle left _ t)

theorem unrolled_of_settle {left : Nat} {stats : Stats} {outcome : Except Fault Stats}
    (h : (settle commit rules nodes left stats).run s = (outcome, s')) :
    Unrolled commit rules nodes left s outcome s' := by
  have hrun : Unrolled commit rules nodes left s _ _ := unrolled_settle left stats s
  rwa [h] at hrun

namespace Unrolled

variable {left : Nat} {stats : Stats} {I : σ → Prop} {μ : σ → Nat}

/-- A run that ends well ends in a state in which no rule has anything to do. -/
theorem quiet : ∀ {left : Nat} {s : σ}, Unrolled commit rules nodes left s (.ok stats) s' →
    ∀ p ∈ tries rules nodes, p.1.fire? s' p.2 = .ok none
  | _, _, .rests hquiet => hquiet
  | _, _, .goesOn _ rest => rest.quiet

/-- What every firing preserves holds at the end of a run. -/
theorem invariant
    (hI : ∀ p ∈ tries rules nodes, ∀ s s', I s → Fires commit p.1 p.2 s s' → I s') :
    ∀ {left : Nat} {s : σ}, Unrolled commit rules nodes left s (.ok stats) s' → I s → I s'
  | _, _, .rests _, hs => hs
  | _, _, .goesOn hpass rest, hs => rest.invariant hI (hpass.invariant hI hs)

/-- A run that does not end well went past its ceiling, or a try failed in a state that firings led
to. -/
theorem fails (hI : ∀ p ∈ tries rules nodes, ∀ s s', I s → Fires commit p.1 p.2 s s' → I s') :
    ∀ {fault : Fault} {left : Nat} {s : σ},
      Unrolled commit rules nodes left s (.error fault) s' → I s →
        fault.isDiverged ∨
          ∃ p ∈ tries rules nodes, ∃ t, I t ∧ Fails commit p.1 p.2 t fault s'
  | _, _, _, .stops hsplit hpass hfails, hs =>
    Or.inr ⟨_, by simp [hsplit], _, hpass.invariant (fun q hq => hI q (by simp [hsplit, hq])) hs,
      hfails⟩
  | _, _, _, .overruns _, _ => Or.inl rfl
  | _, _, _, .goesOn hpass rest, hs => rest.fails hI (hpass.invariant hI hs)

/-- If every firing decreases a measure and no try fails by itself for want of rounds, a run with
as many rounds as the measure at its start does not go past its ceiling. -/
theorem not_diverged
    (hI : ∀ p ∈ tries rules nodes, ∀ s s', I s → Fires commit p.1 p.2 s s' → I s' ∧ μ s' < μ s)
    (hfault : ∀ p ∈ tries rules nodes, ∀ s fault s', I s → Fails commit p.1 p.2 s fault s' →
      fault.isDiverged = false) :
    ∀ {fault : Fault} {left : Nat} {s : σ},
      Unrolled commit rules nodes left s (.error fault) s' → I s → μ s ≤ left →
        fault.isDiverged = false
  | _, _, _, .stops hsplit hpass hfails, hs, _ => by
    refine hfault _ (by simp [hsplit]) _ _ s' (hpass.invariant (fun q hq s s' hs hf => ?_) hs)
      hfails
    exact (hI q (by simp [hsplit, hq]) s s' hs hf).1
  | _, 0, _, .overruns hpass, hs, hleft => by
    have hμ := hpass.measure hI hs
    omega
  | _, left + 1, _, .goesOn hpass rest, hs, hleft => by
    have hμ := hpass.measure hI hs
    exact rest.not_diverged hI hfault
      (hpass.invariant (fun p hp s s' hs hf => (hI p hp s s' hs hf).1) hs) (by omega)

end Unrolled

section Fixpoint

variable {I : σ → Prop} {μ : σ → Nat} {ceiling : Nat} {stats : Stats}

theorem quiet_of_fixpoint (h : (fixpoint commit rules nodes ceiling).run s = (.ok stats, s')) :
    ∀ r ∈ rules, ∀ n ∈ nodes, r.fire? s' n = .ok none :=
  fun r hr n hn => (unrolled_of_settle h).quiet (r, n) (mem_tries.2 ⟨hr, hn⟩)

theorem invariant_of_fixpoint
    (hI : ∀ r ∈ rules, ∀ n ∈ nodes, ∀ s s', I s → Fires commit r n s s' → I s') (hs : I s)
    (h : (fixpoint commit rules nodes ceiling).run s = (.ok stats, s')) : I s' :=
  (unrolled_of_settle h).invariant
    (fun p hp => hI p.1 (mem_tries.1 hp).1 p.2 (mem_tries.1 hp).2) hs

theorem fails_of_fixpoint
    (hI : ∀ r ∈ rules, ∀ n ∈ nodes, ∀ s s', I s → Fires commit r n s s' → I s') (hs : I s)
    (h : (fixpoint commit rules nodes ceiling).run s = (.error fault, s')) : fault.isDiverged ∨
      ∃ r ∈ rules, ∃ n ∈ nodes, ∃ t, I t ∧ Fails commit r n t fault s' := by
  refine ((unrolled_of_settle h).fails
    (fun p hp => hI p.1 (mem_tries.1 hp).1 p.2 (mem_tries.1 hp).2) hs).imp_right ?_
  rintro ⟨p, hp, t, ht, hfails⟩
  exact ⟨p.1, (mem_tries.1 hp).1, p.2, (mem_tries.1 hp).2, t, ht, hfails⟩

theorem fixpoint_not_diverged
    (hI : ∀ r ∈ rules, ∀ n ∈ nodes, ∀ s s', I s → Fires commit r n s s' → I s' ∧ μ s' < μ s)
    (hfault : ∀ r ∈ rules, ∀ n ∈ nodes, ∀ s fault s', I s → Fails commit r n s fault s' →
      fault.isDiverged = false)
    (hs : I s) (hceiling : μ s ≤ ceiling)
    (h : (fixpoint commit rules nodes ceiling).run s = (.error fault, s')) :
    fault.isDiverged = false :=
  (unrolled_of_settle h).not_diverged
    (fun p hp => hI p.1 (mem_tries.1 hp).1 p.2 (mem_tries.1 hp).2)
    (fun p hp => hfault p.1 (mem_tries.1 hp).1 p.2 (mem_tries.1 hp).2) hs hceiling

end Fixpoint

end Rule

end TypeFlow
