import TypeFlow.Proofs.Rule.Fixpoint
/-!
# The course of a run

`course` lists the tries of a run, each with the state in which it is made. A run that ends well
passes through rounds (`Unrolled.pass`), and so it preserves what every firing on its course
preserves (`along_course`). If no try can fail, a run has no other way to fail than to go past its
ceiling (`diverged_of_settle`).
-/

namespace TypeFlow

namespace Rule

variable {σ π : Type} {commit : Commit σ π} {rules : List (Rule σ π)} {nodes : List NodeId}
  {ps qs : List (Rule σ π × NodeId)} {k : Nat} {s s' : σ}

/-- Tries in order, each with the state in which it is made. -/
def course (commit : Commit σ π) : List (Rule σ π × NodeId) → σ → List (σ × Rule σ π × NodeId)
  | [], _ => []
  | p :: ps, s => (s, p) :: course commit ps ((p.1.tryAt commit p.2).run s).2

/-- The tries of a number of rounds. -/
def rounds (rules : List (Rule σ π)) (nodes : List NodeId) (count : Nat) :
    List (Rule σ π × NodeId) :=
  (List.replicate count (tries rules nodes)).flatten

theorem rounds_add (count more : Nat) :
    rounds rules nodes (count + more) = rounds rules nodes count ++ rounds rules nodes more := by
  rw [rounds, rounds, rounds, ← List.flatten_append, List.replicate_append_replicate]

theorem mem_rounds {p : Rule σ π × NodeId} {count : Nat} (h : p ∈ rounds rules nodes count) :
    p ∈ tries rules nodes := by
  obtain ⟨ps, hps, hp⟩ := List.mem_flatten.1 h
  exact List.eq_of_mem_replicate hps ▸ hp

theorem mem_of_mem_course : ∀ {ps : List (Rule σ π × NodeId)} {s : σ},
    ∀ c ∈ course commit ps s, c.2 ∈ ps
  | [], s => by simp [course]
  | p :: ps, s => by
    rw [course]
    exact List.forall_mem_cons.2
      ⟨List.mem_cons_self, fun c hc => List.mem_cons_of_mem _ (mem_of_mem_course c hc)⟩

/-! ## Passes on their course -/

theorem state_of_quiet {p : Rule σ π × NodeId} (h : p.1.fire? s p.2 = .ok none) :
    ((p.1.tryAt commit p.2).run s).2 = s := by
  rw [run_tryAt_eq_ok.2 (Or.inl ⟨rfl, h, rfl⟩)]

theorem state_of_fires {p : Rule σ π × NodeId} (h : Fires commit p.1 p.2 s s') :
    ((p.1.tryAt commit p.2).run s).2 = s' := by
  rw [run_tryAt_eq_ok.2 (Or.inr ⟨rfl, h⟩)]

/-- The course goes on where a pass ends. -/
theorem Pass.course_append (h : Pass commit ps s k s') :
    course commit (ps ++ qs) s = course commit ps s ++ course commit qs s' := by
  induction h with
  | done => rfl
  | @quiet r n _ _ _ _ hq _ ih =>
    rw [List.cons_append, course, course, state_of_quiet (p := (r, n)) hq, ih, List.cons_append]
  | @fires r n _ _ _ _ _ hf _ ih =>
    rw [List.cons_append, course, course, state_of_fires (p := (r, n)) hf, ih, List.cons_append]

/-- What every firing on its course preserves, a pass preserves. -/
theorem Pass.along {I : σ → Prop}
    (hI : ∀ c ∈ course commit ps s, I c.1 → ∀ s', Fires commit c.2.1 c.2.2 c.1 s' → I s')
    (h : Pass commit ps s k s') (hs : I s) : I s' := by
  induction h with
  | done => exact hs
  | @quiet r n _ _ _ _ hq _ ih =>
    rw [course, state_of_quiet (p := (r, n)) hq] at hI
    exact ih (fun c hc => hI c (List.mem_cons_of_mem _ hc)) hs
  | @fires r n _ _ _ _ _ hf _ ih =>
    rw [course, state_of_fires (p := (r, n)) hf] at hI
    exact ih (fun c hc => hI c (List.mem_cons_of_mem _ hc))
      (hI _ List.mem_cons_self hs _ hf)

/-! ## Runs on their course -/

/-- A run that ends well passes through rounds, no more than may fire. -/
theorem Unrolled.pass {stats : Stats} : ∀ {left : Nat} {s s' : σ},
    Unrolled commit rules nodes left s (.ok stats) s' →
      ∃ count ≤ left, ∃ k, Pass commit (rounds rules nodes count) s k s'
  | left, s, _, .rests _ => ⟨0, Nat.zero_le left, 0, .done s⟩
  | _, _, _, .goesOn hpass rest => by
    obtain ⟨count, hcount, l, hrest⟩ := rest.pass
    exact ⟨count + 1, Nat.succ_le_succ hcount, _, hpass.append hrest⟩

section Fixpoint

variable {ceiling : Nat} {stats : Stats}

/-- All tries of a run with a ceiling for its rounds: at most one round comes behind those that
the ceiling counts, and in rounds that are not made any more nothing would change. -/
def fullCourse (commit : Commit σ π) (rules : List (Rule σ π)) (nodes : List NodeId)
    (ceiling : Nat) (s : σ) : List (σ × Rule σ π × NodeId) :=
  course commit (rounds rules nodes (ceiling + 1)) s

/-- The full course of a run that ends well starts with that of its rounds that fire. -/
theorem pass_fullCourse (h : (fixpoint commit rules nodes ceiling).run s = (.ok stats, s')) :
    ∃ count k, Pass commit (rounds rules nodes count) s k s' ∧
      ∀ c ∈ course commit (rounds rules nodes count) s,
        c ∈ fullCourse commit rules nodes ceiling s := by
  obtain ⟨count, hcount, k, hpass⟩ := (unrolled_of_settle h).pass
  obtain ⟨more, rfl⟩ := Nat.exists_eq_add_of_le hcount
  refine ⟨count, k, hpass, fun c hc => ?_⟩
  rw [fullCourse, Nat.add_assoc, rounds_add, hpass.course_append]
  exact List.mem_append_left _ hc

/-- A run that ends well preserves what every firing on its course preserves. -/
theorem along_course {I : σ → Prop}
    (hI : ∀ c ∈ fullCourse commit rules nodes ceiling s, c.2 ∈ tries rules nodes → I c.1 →
      ∀ s', Fires commit c.2.1 c.2.2 c.1 s' → I s')
    (h : (fixpoint commit rules nodes ceiling).run s = (.ok stats, s')) (hs : I s) : I s' := by
  obtain ⟨count, k, hpass, hcourse⟩ := pass_fullCourse h
  exact hpass.along
    (fun c hc => hI c (hcourse c hc) (mem_rounds (mem_of_mem_course c hc))) hs

end Fixpoint

/-- If no try can fail, a run that fails went past its ceiling. -/
theorem diverged_of_settle {I : σ → Prop} {fault : Fault}
    (hI : ∀ p ∈ tries rules nodes, ∀ s s', I s → Fires commit p.1 p.2 s s' → I s')
    (hok : ∀ p ∈ tries rules nodes, ∀ s fault s', I s → ¬Fails commit p.1 p.2 s fault s')
    {left : Nat} {stats : Stats} (hs : I s)
    (h : (settle commit rules nodes left stats).run s = (.error fault, s')) : fault.isDiverged := by
  refine ((unrolled_of_settle h).fails hI hs).resolve_right ?_
  rintro ⟨p, hp, t, ht, hfails⟩
  exact hok p hp t fault s' ht hfails

end Rule

end TypeFlow
