import TypeFlow.Proofs.Rule.Fixpoint
/-!
# How a run of rounds ends

`Logged` lists the patches that tries in order commit, and `Busy` strings rounds together that
commit at least one patch each. Every run of rounds ends in one of three ways, and its last state
and all of its counts are read off these logs (`fixpoint_outcome`): it comes to rest (`Settles`), a
try stops it (`Stops`), or one round too many fires (`Overruns`). The loop needs no count of the
rounds that are left to come to such an end (`Turns`): it tells by its own counts after how many
rounds it has to give up.
-/

namespace TypeFlow

namespace Rule

variable {σ π : Type} {commit : Commit σ π} {rules : List (Rule σ π)} {nodes : List NodeId}
  {ps qs : List (Rule σ π × NodeId)} {r : Rule σ π} {n : NodeId} {s s' t : σ} {fault : Fault}
  {done done' : Round} {ceiling : Nat} {stats stats' : Stats}

/-! ## A list of tries -/

/-- Make tries in order, and keep record of those that fire. -/
def tryAll (commit : Commit σ π) : List (Rule σ π × NodeId) → Round → Run σ Round
  | [], done => return done
  | (r, n) :: ps, done => do
    if ← r.tryAt commit n then tryAll commit ps ⟨done.firings + 1, some (r.name, n)⟩
    else tryAll commit ps done

theorem run_alongNodes_eq : ∀ (nodes : List NodeId) (done : Round) (s : σ),
    (r.alongNodes commit nodes done).run s =
      (tryAll commit (nodes.map fun n => (r, n)) done).run s
  | [], _, _ => rfl
  | n :: ns, done, s => by
    rw [alongNodes, List.map_cons, tryAll, Run.run_bind, Run.run_bind]
    rcases (r.tryAt commit n).run s with ⟨fault | _ | _, t⟩
    · rfl
    · exact run_alongNodes_eq ns done t
    · exact run_alongNodes_eq ns _ t

theorem run_tryAll_append : ∀ (ps qs : List (Rule σ π × NodeId)) (done : Round) (s : σ),
    (tryAll commit (ps ++ qs) done).run s = (tryAll commit ps done >>= tryAll commit qs).run s
  | [], qs, done, s => by rw [tryAll, Run.run_bind_of_ok (Run.run_pure done), List.nil_append]
  | (r, n) :: ps, qs, done, s => by
    rw [List.cons_append, tryAll, tryAll, Run.run_bind, Run.run_bind, Run.run_bind]
    rcases (r.tryAt commit n).run s with ⟨fault | _ | _, t⟩
    · rfl
    · exact (run_tryAll_append ps qs done t).trans (Run.run_bind _ _)
    · exact (run_tryAll_append ps qs _ t).trans (Run.run_bind _ _)

theorem run_alongRules_eq : ∀ (rules : List (Rule σ π)) (done : Round) (s : σ),
    (alongRules commit nodes rules done).run s = (tryAll commit (tries rules nodes) done).run s
  | [], _, _ => rfl
  | r :: rs, done, s => by
    have htries : tries (r :: rs) nodes = (nodes.map fun n => (r, n)) ++ tries rs nodes := rfl
    rw [htries, run_tryAll_append, alongRules, Run.run_bind, Run.run_bind, run_alongNodes_eq]
    rcases (tryAll commit (nodes.map fun n => (r, n)) done).run s with ⟨fault | done', t⟩
    · rfl
    · exact run_alongRules_eq rs done' t

/-- A round makes its tries in order. -/
theorem run_round_eq : (round commit rules nodes).run s =
    (tryAll commit (tries rules nodes) ⟨0, none⟩).run s := run_alongRules_eq rules _ s

/-! ## The log of a list of tries -/

/-- A patch that was committed, with its rule and its node. -/
structure Entry (σ π : Type) where
  rule : Rule σ π
  node : NodeId
  patch : π

/-- Tries in order that all succeed, and the patches that they commit. Each patch is what its rule
has to do in the state that the commits before it leave. -/
inductive Logged (commit : Commit σ π) :
    List (Rule σ π × NodeId) → σ → List (Entry σ π) → σ → Prop
  | done (s : σ) : Logged commit [] s [] s
  | quiet {r : Rule σ π} {n : NodeId} {ps : List (Rule σ π × NodeId)} {s s' : σ}
      {log : List (Entry σ π)} (h : r.fire? s n = .ok none) (rest : Logged commit ps s log s') :
      Logged commit ((r, n) :: ps) s log s'
  | fires {r : Rule σ π} {n : NodeId} {p : π} {ps : List (Rule σ π × NodeId)} {s s' s'' : σ}
      {log : List (Entry σ π)} (h : r.fire? s n = .ok (some p))
      (hcommit : (commit p).run s = (.ok (), s')) (rest : Logged commit ps s' log s'') :
      Logged commit ((r, n) :: ps) s (⟨r, n, p⟩ :: log) s''

/-- The record of a round with one more commit. -/
def Round.record (done : Round) (e : Entry σ π) : Round :=
  ⟨done.firings + 1, some (e.rule.name, e.node)⟩

theorem foldl_record (log : List (Entry σ π)) (done : Round) : log.foldl Round.record done =
    ⟨done.firings + log.length,
      (log.getLast?.map fun e => (e.rule.name, e.node)).or done.last?⟩ := by
  induction log generalizing done with
  | nil => simp
  | cons e es ih =>
    rw [List.foldl_cons, ih, Round.record, List.length_cons, List.getLast?_cons]
    cases es.getLast? <;> simp <;> omega

/-- Tries succeed exactly as a log tells, and what they record is read off it. -/
theorem run_tryAll_eq_ok : (tryAll commit ps done).run s = (.ok done', s') ↔
    ∃ log, Logged commit ps s log s' ∧ done' = log.foldl Round.record done := by
  constructor
  · intro h
    induction ps generalizing done s with
    | nil =>
      obtain ⟨rfl, rfl⟩ : done = done' ∧ s = s' := by simpa [tryAll] using h
      exact ⟨[], .done s, rfl⟩
    | cons p ps ih =>
      rw [tryAll, Run.run_bind_eq_ok] at h
      obtain ⟨fired, t, htry, hrest⟩ := h
      rcases run_tryAt_eq_ok.1 htry with ⟨rfl, hq, rfl⟩ | ⟨rfl, patch, hfire, hcommit⟩
      · obtain ⟨log, hlog, hdone⟩ := ih hrest
        exact ⟨log, .quiet hq hlog, hdone⟩
      · obtain ⟨log, hlog, hdone⟩ := ih hrest
        exact ⟨_, .fires hfire hcommit hlog, hdone⟩
  · rintro ⟨log, hlog, rfl⟩
    induction hlog generalizing done with
    | done s => rfl
    | quiet hq _ ih =>
      rw [tryAll, Run.run_bind_of_ok (run_tryAt_eq_ok.2 (Or.inl ⟨rfl, hq, rfl⟩))]
      exact ih
    | fires hfire hcommit _ ih =>
      rw [tryAll, Run.run_bind_of_ok (run_tryAt_eq_ok.2 (Or.inr ⟨rfl, _, hfire, hcommit⟩))]
      exact ih

/-- Tries in order of which one fails, after those before it have succeeded. -/
def Broken (commit : Commit σ π) (ps : List (Rule σ π × NodeId)) (s : σ) (fault : Fault) (s' : σ) :
    Prop :=
  ∃ before p after log t, ps = before ++ p :: after ∧ Logged commit before s log t ∧
    Fails commit p.1 p.2 t fault s'

theorem run_tryAll_eq_error : (tryAll commit ps done).run s = (.error fault, s') ↔
    Broken commit ps s fault s' := by
  constructor
  · intro h
    induction ps generalizing done s with
    | nil => simp [tryAll] at h
    | cons p ps ih =>
      rw [tryAll, Run.run_bind_eq_error] at h
      rcases h with h | ⟨fired, t, htry, hrest⟩
      · exact ⟨[], p, ps, [], s, rfl, .done s, run_tryAt_eq_error.1 h⟩
      · rcases run_tryAt_eq_ok.1 htry with ⟨rfl, hq, rfl⟩ | ⟨rfl, patch, hfire, hcommit⟩
        · obtain ⟨before, q, after, log, u, rfl, hlog, hfails⟩ := ih hrest
          exact ⟨p :: before, q, after, log, u, rfl, .quiet hq hlog, hfails⟩
        · obtain ⟨before, q, after, log, u, rfl, hlog, hfails⟩ := ih hrest
          exact ⟨p :: before, q, after, _, u, rfl, .fires hfire hcommit hlog, hfails⟩
  · rintro ⟨before, p, after, log, t, rfl, hlog, hfails⟩
    rw [run_tryAll_append, Run.run_bind_of_ok (run_tryAll_eq_ok.2 ⟨log, hlog, rfl⟩), tryAll]
    exact Run.run_bind_of_error (run_tryAt_eq_error.2 hfails)

/-- Where nothing is committed, every try is quiet in the one state that there is. -/
theorem logged_nil_iff : Logged commit ps s [] s' ↔
    s' = s ∧ ∀ p ∈ ps, p.1.fire? s p.2 = .ok none := by
  induction ps with
  | nil =>
    constructor
    · rintro ⟨⟩
      exact ⟨rfl, nofun⟩
    · rintro ⟨rfl, -⟩
      exact .done _
  | cons p ps ih =>
    rw [List.forall_mem_cons]
    constructor
    · intro h
      cases h with
      | quiet hq rest =>
        obtain ⟨rfl, hrest⟩ := ih.1 rest
        exact ⟨rfl, hq, hrest⟩
    · rintro ⟨rfl, hq, hrest⟩
      exact .quiet hq (ih.2 ⟨rfl, hrest⟩)

/-! ## Rounds in a row -/

/-- Rounds in a row that commit something each, with what each of them commits. -/
inductive Busy (commit : Commit σ π) (rules : List (Rule σ π)) (nodes : List NodeId) :
    σ → List (List (Entry σ π)) → σ → Prop
  | none (s : σ) : Busy commit rules nodes s [] s
  | round {s t s' : σ} {log : List (Entry σ π)} {logs : List (List (Entry σ π))}
      (h : Logged commit (tries rules nodes) s log t) (hlog : log ≠ [])
      (rest : Busy commit rules nodes t logs s') : Busy commit rules nodes s (log :: logs) s'

/-- No rule has anything to do at any of the nodes. -/
def Quiet (rules : List (Rule σ π)) (nodes : List NodeId) (s : σ) : Prop :=
  ∀ r ∈ rules, ∀ n ∈ nodes, r.applies s n = false ∨ r.effect s n = .ok none

theorem fire?_eq_ok_none : r.fire? s n = .ok none ↔
    r.applies s n = false ∨ r.effect s n = .ok none := by
  unfold fire?
  cases r.applies s n <;> simp

theorem quiet_iff : Quiet rules nodes s ↔ ∀ p ∈ tries rules nodes, p.1.fire? s p.2 = .ok none := by
  constructor
  · rintro h ⟨r, n⟩ hp
    obtain ⟨hr, hn⟩ := mem_tries.1 hp
    exact fire?_eq_ok_none.2 (h r hr n hn)
  · intro h r hr n hn
    exact fire?_eq_ok_none.1 (h (r, n) (mem_tries.2 ⟨hr, hn⟩))

/-- From every state a round is quiet, or it commits something, or a try of it fails. -/
theorem round_cases (commit : Commit σ π) (rules : List (Rule σ π)) (nodes : List NodeId) (s : σ) :
    Quiet rules nodes s ∨
      (∃ log t, Logged commit (tries rules nodes) s log t ∧ log ≠ []) ∨
        ∃ fault s', Broken commit (tries rules nodes) s fault s' := by
  rcases hrun : (tryAll commit (tries rules nodes) ⟨0, none⟩).run s with ⟨fault | done, t⟩
  · exact Or.inr (Or.inr ⟨fault, t, run_tryAll_eq_error.1 hrun⟩)
  · obtain ⟨log, hlog, -⟩ := run_tryAll_eq_ok.1 hrun
    by_cases hnil : log = []
    · subst hnil
      obtain ⟨rfl, hquiet⟩ := logged_nil_iff.1 hlog
      exact Or.inl (quiet_iff.2 hquiet)
    · exact Or.inr (Or.inl ⟨log, t, hlog, hnil⟩)

/-- Tries that succeed lead to one state, and none of them fails. -/
theorem Logged.state_unique {log log' : List (Entry σ π)} (h : Logged commit ps s log t)
    (h' : Logged commit ps s log' s') : s' = t := by
  have hrun : (tryAll commit ps ⟨0, none⟩).run s = (.ok (log.foldl Round.record ⟨0, none⟩), t) :=
    run_tryAll_eq_ok.2 ⟨log, h, rfl⟩
  rw [run_tryAll_eq_ok.2 ⟨log', h', rfl⟩] at hrun
  exact (Prod.mk.inj hrun).2

theorem Logged.not_broken {log : List (Entry σ π)} (h : Logged commit ps s log t) :
    ¬Broken commit ps s fault s' := by
  intro hbroken
  have hrun : (tryAll commit ps ⟨0, none⟩).run s = (.error fault, s') :=
    run_tryAll_eq_error.2 hbroken
  rw [run_tryAll_eq_ok.2 ⟨log, h, rfl⟩] at hrun
  cases (Prod.mk.inj hrun).1

namespace Busy

variable {log : List (Entry σ π)} {logs logs' : List (List (Entry σ π))}

/-- One more round may come behind rounds in a row. -/
theorem snoc_iff : Busy commit rules nodes s (logs ++ [log]) s' ↔
    ∃ t, Busy commit rules nodes s logs t ∧ Logged commit (tries rules nodes) t log s' ∧
      log ≠ [] := by
  induction logs generalizing s with
  | nil =>
    constructor
    · rintro (_ | ⟨hlog, hne, ⟨⟩⟩)
      exact ⟨s, .none s, hlog, hne⟩
    · rintro ⟨t, ⟨⟩, hlog, hne⟩
      exact .round hlog hne (.none s')
  | cons first logs ih =>
    constructor
    · rintro (_ | ⟨hfirst, hne, hrest⟩)
      obtain ⟨t, hbusy, hlog⟩ := ih.1 hrest
      exact ⟨t, .round hfirst hne hbusy, hlog⟩
    · rintro ⟨t, _ | ⟨hfirst, hne, hrest⟩, hlog⟩
      exact .round hfirst hne (ih.2 ⟨t, hrest, hlog⟩)

/-- Of two rows of rounds from one state, the longer one goes on where the shorter one ends. -/
theorem rest (h : Busy commit rules nodes s logs t) (h' : Busy commit rules nodes s logs' s')
    (hle : logs.length ≤ logs'.length) :
    ∃ rest, Busy commit rules nodes t rest s' ∧ logs'.length = logs.length + rest.length := by
  induction h generalizing logs' with
  | none => exact ⟨logs', h', (Nat.zero_add _).symm⟩
  | round hlog _ _ ih =>
    cases h' with
    | none => cases hle
    | round hlog' _ hrest' =>
      obtain rfl := hlog.state_unique hlog'
      obtain ⟨rest, hrest, hlength⟩ := ih hrest' (Nat.le_of_succ_le_succ hle)
      exact ⟨rest, hrest, by rw [List.length_cons, List.length_cons, hlength]; omega⟩

end Busy

/-! ## The next round of a run -/

section Settle

variable {left : Nat} {log : List (Entry σ π)} {logs : List (List (Entry σ π))} {last : Entry σ π}

/-- A run is through when nothing is left to do. -/
theorem run_settle_of_quiet (h : Quiet rules nodes s) :
    (settle commit rules nodes left stats).run s =
      (.ok { stats with rounds := stats.rounds + 1 }, s) := by
  have hlog : Logged commit (tries rules nodes) s [] s := logged_nil_iff.2 ⟨rfl, quiet_iff.1 h⟩
  rw [settle, Run.run_bind, run_round_eq, run_tryAll_eq_ok.2 ⟨[], hlog, rfl⟩]
  rfl

/-- A run fails with a try of its next round. -/
theorem run_settle_of_broken (h : Broken commit (tries rules nodes) s fault s') :
    (settle commit rules nodes left stats).run s = (.error fault, s') := by
  rw [settle, Run.run_bind, run_round_eq, run_tryAll_eq_error.2 h]

/-- A round that commits something is counted, or it is the one that is too many. -/
theorem run_settle_of_logged (h : Logged commit (tries rules nodes) s log t)
    (hlast : log.getLast? = some last) : (settle commit rules nodes left stats).run s =
      match left with
      | 0 => (.error (.diverged last.rule.name last.node (stats.rounds + 1)), t)
      | left + 1 => (settle commit rules nodes left
          ⟨stats.rounds + 1, stats.productive + 1, stats.firings + log.length⟩).run t := by
  have hrecord : log.foldl Round.record ⟨0, none⟩ =
      ⟨log.length, some (last.rule.name, last.node)⟩ := by
    rw [foldl_record, hlast, Nat.zero_add]
    rfl
  rw [settle, Run.run_bind, run_round_eq, run_tryAll_eq_ok.2 ⟨log, h, rfl⟩, hrecord]
  cases left <;> rfl

/-- Rounds in a row that commit something are counted one by one. -/
theorem run_settle_of_busy (h : Busy commit rules nodes s logs t) :
    (settle commit rules nodes (left + logs.length) stats).run s =
      (settle commit rules nodes left ⟨stats.rounds + logs.length,
        stats.productive + logs.length, stats.firings + logs.flatten.length⟩).run t := by
  induction h generalizing stats with
  | none => rfl
  | round hlog hne _ ih =>
    rw [List.length_cons, ← Nat.add_assoc,
      run_settle_of_logged hlog (List.getLast?_eq_some_getLast hne)]
    simp only [ih, List.flatten_cons, List.length_append, Nat.add_assoc, Nat.add_comm 1]

end Settle

/-! ## The three endings -/

/-- The rounds that commit something, no more than the ceiling allows, lead to a state in which
nothing is left to do. The round in which this is found out is counted as well. -/
def Settles (commit : Commit σ π) (rules : List (Rule σ π)) (nodes : List NodeId) (ceiling : Nat)
    (s : σ) (stats : Stats) (s' : σ) : Prop :=
  ∃ logs, Busy commit rules nodes s logs s' ∧ Quiet rules nodes s' ∧
    stats.productive = logs.length ∧ stats.productive ≤ ceiling ∧
    stats.rounds = stats.productive + 1 ∧ stats.firings = logs.flatten.length

/-- A try fails behind rounds that commit something, no more than the ceiling allows. -/
def Stops (commit : Commit σ π) (rules : List (Rule σ π)) (nodes : List NodeId) (ceiling : Nat)
    (s : σ) (fault : Fault) (s' : σ) : Prop :=
  ∃ logs t, Busy commit rules nodes s logs t ∧ logs.length ≤ ceiling ∧
    Broken commit (tries rules nodes) t fault s'

/-- One round more commits something than the ceiling allows. The fault names the last commit and
counts the rounds. -/
def Overruns (commit : Commit σ π) (rules : List (Rule σ π)) (nodes : List NodeId) (ceiling : Nat)
    (s : σ) (fault : Fault) (s' : σ) : Prop :=
  ∃ logs, Busy commit rules nodes s logs s' ∧ logs.length = ceiling + 1 ∧
    ∃ last, logs.flatten.getLast? = some last ∧
      fault = .diverged last.rule.name last.node (ceiling + 1)

/-- The rounds that a row of rounds leaves to a run. -/
theorem run_fixpoint_of_busy {logs : List (List (Entry σ π))}
    (h : Busy commit rules nodes s logs t) (hle : logs.length ≤ ceiling) :
    (fixpoint commit rules nodes ceiling).run s = (settle commit rules nodes
      (ceiling - logs.length) ⟨logs.length, logs.length, logs.flatten.length⟩).run t := by
  have hskip : (settle commit rules nodes (ceiling - logs.length + logs.length) ⟨0, 0, 0⟩).run s =
      _ := run_settle_of_busy h
  rwa [Nat.sub_add_cancel hle, Nat.zero_add, Nat.zero_add] at hskip

theorem run_fixpoint_of_settles (h : Settles commit rules nodes ceiling s stats s') :
    (fixpoint commit rules nodes ceiling).run s = (.ok stats, s') := by
  obtain ⟨logs, hbusy, hquiet, hproductive, hle, hrounds, hfirings⟩ := h
  rw [run_fixpoint_of_busy hbusy (hproductive ▸ hle), run_settle_of_quiet hquiet]
  cases stats
  simp_all

theorem run_fixpoint_of_stops (h : Stops commit rules nodes ceiling s fault s') :
    (fixpoint commit rules nodes ceiling).run s = (.error fault, s') := by
  obtain ⟨logs, t, hbusy, hle, hbroken⟩ := h
  rw [run_fixpoint_of_busy hbusy hle, run_settle_of_broken hbroken]

theorem run_fixpoint_of_overruns (h : Overruns commit rules nodes ceiling s fault s') :
    (fixpoint commit rules nodes ceiling).run s = (.error fault, s') := by
  obtain ⟨logs, hbusy, hlength, last, hlast, rfl⟩ := h
  obtain ⟨init, log, rfl⟩ := (List.eq_nil_or_concat logs).resolve_left
    (by rintro rfl; cases hlength)
  rw [List.concat_eq_append] at hbusy hlength hlast
  obtain ⟨t, hbusy, hlog, hne⟩ := Busy.snoc_iff.1 hbusy
  obtain rfl : init.length = ceiling := by simpa using hlength
  have hlast : log.getLast? = some last := by
    rw [List.flatten_append, List.getLast?_append, List.flatten_singleton,
      List.getLast?_eq_some_getLast hne, Option.some_or] at hlast
    rw [List.getLast?_eq_some_getLast hne, hlast]
  rw [run_fixpoint_of_busy hbusy (Nat.le_refl _), Nat.sub_self, run_settle_of_logged hlog hlast]

/-- Rounds in a row go on until one is quiet, a try fails, or there are as many as asked for. -/
theorem exists_busy (commit : Commit σ π) (rules : List (Rule σ π)) (nodes : List NodeId) :
    ∀ (count : Nat) (s : σ), ∃ logs t, Busy commit rules nodes s logs t ∧
      (logs.length < count ∧ (Quiet rules nodes t ∨
        ∃ fault s', Broken commit (tries rules nodes) t fault s') ∨ logs.length = count)
  | 0, s => ⟨[], s, .none s, Or.inr rfl⟩
  | count + 1, s => by
    rcases round_cases commit rules nodes s with hquiet | ⟨log, t, hlog, hne⟩ | hbroken
    · exact ⟨[], s, .none s, Or.inl ⟨Nat.succ_pos _, Or.inl hquiet⟩⟩
    · obtain ⟨logs, u, hbusy, hend⟩ := exists_busy commit rules nodes count t
      refine ⟨log :: logs, u, .round hlog hne hbusy, ?_⟩
      rw [List.length_cons, Nat.succ_lt_succ_iff, Nat.succ_inj]
      exact hend
    · exact ⟨[], s, .none s, Or.inl ⟨Nat.succ_pos _, Or.inr hbroken⟩⟩

theorem overruns_of_busy {logs : List (List (Entry σ π))} (h : Busy commit rules nodes s logs s')
    (hlength : logs.length = ceiling + 1) :
    ∃ fault, Overruns commit rules nodes ceiling s fault s' := by
  cases h with
  | none => cases hlength
  | @round _ _ _ log logs hlog hne hrest =>
    have hflat : (log :: logs).flatten ≠ [] := by simp [hne]
    exact ⟨_, _, .round hlog hne hrest, hlength, _, List.getLast?_eq_some_getLast hflat, rfl⟩

/-- Every run has one of the three endings. -/
theorem fixpoint_cases (commit : Commit σ π) (rules : List (Rule σ π)) (nodes : List NodeId)
    (ceiling : Nat) (s : σ) :
    (∃ stats s', Settles commit rules nodes ceiling s stats s') ∨
      (∃ fault s', Stops commit rules nodes ceiling s fault s') ∨
        ∃ fault s', Overruns commit rules nodes ceiling s fault s' := by
  obtain ⟨logs, t, hbusy, ⟨hlt, hquiet | ⟨fault, s', hbroken⟩⟩ | hlength⟩ :=
    exists_busy commit rules nodes (ceiling + 1) s
  · exact Or.inl ⟨⟨logs.length + 1, logs.length, logs.flatten.length⟩, t, logs, hbusy, hquiet, rfl,
      Nat.le_of_lt_succ hlt, rfl, rfl⟩
  · exact Or.inr (Or.inl ⟨fault, s', logs, t, hbusy, Nat.le_of_lt_succ hlt, hbroken⟩)
  · obtain ⟨fault, hover⟩ := overruns_of_busy hbusy hlength
    exact Or.inr (Or.inr ⟨fault, t, hover⟩)

/-- Where a try fails, no round more than the ceiling allows commits anything. -/
theorem Stops.not_overruns (h : Stops commit rules nodes ceiling s fault s') {fault' : Fault}
    {t : σ} : ¬Overruns commit rules nodes ceiling s fault' t := by
  rintro ⟨logs', hbusy', hlength, -⟩
  obtain ⟨logs, u, hbusy, hle, hbroken⟩ := h
  obtain ⟨rest, hrest, hsum⟩ := hbusy.rest hbusy' (by omega)
  cases hrest with
  | none => simp at hsum; omega
  | round hlog _ _ => exact hlog.not_broken hbroken

/-! ## The loop by its own counts -/

/-- One turn of the loop: a round, and then the end of the run, on the left, or the counts to go on
with, on the right. The run is given up when the rounds that fired are more than the ceiling. -/
def turn (commit : Commit σ π) (rules : List (Rule σ π)) (nodes : List NodeId) (ceiling : Nat)
    (stats : Stats) : Run σ (Stats ⊕ Stats) := do
  let done ← round commit rules nodes
  match done.last? with
  | none => return .inl { stats with rounds := stats.rounds + 1 }
  | some (rule, node) =>
    if ceiling < stats.productive + 1 then throw (.diverged rule node (stats.rounds + 1))
    else return .inr ⟨stats.rounds + 1, stats.productive + 1, stats.firings + done.firings⟩

/-- The loop comes to an outcome in so many turns, of which no bound is set. -/
inductive Turns (commit : Commit σ π) (rules : List (Rule σ π)) (nodes : List NodeId)
    (ceiling : Nat) : Nat → Stats → σ → Except Fault Stats → σ → Prop
  | fails {stats : Stats} {s s' : σ} {fault : Fault}
      (h : (turn commit rules nodes ceiling stats).run s = (.error fault, s')) :
      Turns commit rules nodes ceiling 1 stats s (.error fault) s'
  | ends {stats stats' : Stats} {s s' : σ}
      (h : (turn commit rules nodes ceiling stats).run s = (.ok (.inl stats'), s')) :
      Turns commit rules nodes ceiling 1 stats s (.ok stats') s'
  | goesOn {stats stats' : Stats} {s t s' : σ} {count : Nat} {outcome : Except Fault Stats}
      (h : (turn commit rules nodes ceiling stats).run s = (.ok (.inr stats'), t))
      (rest : Turns commit rules nodes ceiling count stats' t outcome s') :
      Turns commit rules nodes ceiling (count + 1) stats s outcome s'

/-- The loop halts, with the outcome of the run that counts the rounds that are left. -/
theorem exists_turns : ∀ {left : Nat} {stats : Stats} {s : σ}, stats.productive + left = ceiling →
    ∃ count ≤ left + 1, Turns commit rules nodes ceiling count stats s
      ((settle commit rules nodes left stats).run s).1
      ((settle commit rules nodes left stats).run s).2
  | left, stats, s, hleft => by
    rw [settle, Run.run_bind]
    rcases hround : (round commit rules nodes).run s with ⟨fault | ⟨firings, _ | last⟩, t⟩
    · exact ⟨1, by omega, .fails (by rw [turn, Run.run_bind, hround])⟩
    · exact ⟨1, by omega, .ends (by rw [turn, Run.run_bind, hround]; rfl)⟩
    · cases left with
      | zero =>
        refine ⟨1, by omega, .fails ?_⟩
        rw [turn, Run.run_bind, hround]
        simp only
        rw [if_pos (by omega)]
        rfl
      | succ left =>
        have hleft' : (⟨stats.rounds + 1, stats.productive + 1, stats.firings + firings⟩ :
            Stats).productive + left = ceiling := by
          dsimp only
          omega
        obtain ⟨count, hcount, hturns⟩ := exists_turns (s := t) hleft'
        refine ⟨count + 1, by omega, .goesOn ?_ hturns⟩
        rw [turn, Run.run_bind, hround]
        simp only
        rw [if_neg (by omega)]
        rfl

/-! ## The outcome -/

theorem run_fixpoint_eq_ok : (fixpoint commit rules nodes ceiling).run s = (.ok stats, s') ↔
    Settles commit rules nodes ceiling s stats s' := by
  refine ⟨fun h => ?_, run_fixpoint_of_settles⟩
  rcases fixpoint_cases commit rules nodes ceiling s with ⟨_, _, h'⟩ | ⟨_, _, h'⟩ | ⟨_, _, h'⟩
  · obtain ⟨hstats, rfl⟩ := Run.outcome_eq.1 (h.symm.trans (run_fixpoint_of_settles h'))
    rwa [Except.ok.inj hstats]
  · cases (Run.outcome_eq.1 (h.symm.trans (run_fixpoint_of_stops h'))).1
  · cases (Run.outcome_eq.1 (h.symm.trans (run_fixpoint_of_overruns h'))).1

theorem run_fixpoint_eq_error :
    (fixpoint commit rules nodes ceiling).run s = (.error fault, s') ↔
      Stops commit rules nodes ceiling s fault s' ∨
        Overruns commit rules nodes ceiling s fault s' := by
  refine ⟨fun h => ?_, fun h => h.elim run_fixpoint_of_stops run_fixpoint_of_overruns⟩
  rcases fixpoint_cases commit rules nodes ceiling s with ⟨_, _, h'⟩ | ⟨_, _, h'⟩ | ⟨_, _, h'⟩
  · cases (Run.outcome_eq.1 (h.symm.trans (run_fixpoint_of_settles h'))).1
  · obtain ⟨hfault, rfl⟩ := Run.outcome_eq.1 (h.symm.trans (run_fixpoint_of_stops h'))
    exact Or.inl (Except.error.inj hfault ▸ h')
  · obtain ⟨hfault, rfl⟩ := Run.outcome_eq.1 (h.symm.trans (run_fixpoint_of_overruns h'))
    exact Or.inr (Except.error.inj hfault ▸ h')

/-- A run of rounds halts, after one round more than its ceiling at the latest. It ends well exactly
if rounds that all commit something, no more than the ceiling allows, lead to a state in which no
rule has anything to do, and its counts are those of these rounds and of their commits. It fails
exactly if a try fails behind such rounds, with the fault of the try, or if one round more than the
ceiling allows commits something, which is never the case where a try fails. -/
theorem fixpoint_outcome (commit : Commit σ π) (rules : List (Rule σ π)) (nodes : List NodeId)
    (ceiling : Nat) (s : σ) :
    (∃ count ≤ ceiling + 1, Turns commit rules nodes ceiling count ⟨0, 0, 0⟩ s
      ((fixpoint commit rules nodes ceiling).run s).1
      ((fixpoint commit rules nodes ceiling).run s).2) ∧
    (∀ stats s', (fixpoint commit rules nodes ceiling).run s = (.ok stats, s') ↔
      Settles commit rules nodes ceiling s stats s') ∧
    (∀ fault s', (fixpoint commit rules nodes ceiling).run s = (.error fault, s') ↔
      Stops commit rules nodes ceiling s fault s' ∨
        Overruns commit rules nodes ceiling s fault s') ∧
    ((∃ fault s', Overruns commit rules nodes ceiling s fault s') ↔
      ∃ logs s', Busy commit rules nodes s logs s' ∧ logs.length = ceiling + 1) ∧
    ∀ fault s' fault' t, ¬(Stops commit rules nodes ceiling s fault s' ∧
      Overruns commit rules nodes ceiling s fault' t) := by
  refine ⟨exists_turns (Nat.zero_add ceiling), fun _ _ => run_fixpoint_eq_ok,
    fun _ _ => run_fixpoint_eq_error, ⟨?_, ?_⟩, fun _ _ _ _ h => h.1.not_overruns h.2⟩
  · rintro ⟨fault, s', logs, hbusy, hlength, -⟩
    exact ⟨logs, s', hbusy, hlength⟩
  · rintro ⟨logs, s', hbusy, hlength⟩
    obtain ⟨fault, hover⟩ := overruns_of_busy hbusy hlength
    exact ⟨fault, s', hover⟩

/-- A rule on a counter that asks for one more wherever the counter is below the node's number. -/
def counting : Rule Nat Nat where
  name := "count"
  applies s n := s < n.index
  effect _ _ := .ok (some 1)

/-- A counter that cannot go past a limit. -/
def addUpTo (limit : Nat) : Commit Nat Nat := fun p => do
  if (← get) + p ≤ limit then modify (· + p) else throw (.staleHandle limit)

theorem fault_of_addUpTo {limit m m' : Nat} (h : Fails (addUpTo limit) counting n m fault m') :
    fault = .staleHandle limit := by
  rcases h with ⟨h, -⟩ | ⟨p, -, h⟩
  · rw [fire?] at h
    split at h <;> cases h
  · rw [addUpTo, Run.run_bind_of_ok Run.run_get] at h
    split at h
    · cases (Run.outcome_eq.1 h).1
    · exact (Except.error.inj (Run.outcome_eq.1 h).1).symm

/-- The counter comes to rest after three rounds if the ceiling lets two of them count, under a
lower ceiling the second one is too many, and with a lower limit a try of the first one fails. -/
theorem fixpoint_outcome_counting :
    Settles (addUpTo 9) [counting] [⟨2⟩, ⟨3⟩] 2 0 ⟨3, 2, 3⟩ 3 ∧
    Overruns (addUpTo 9) [counting] [⟨2⟩, ⟨3⟩] 1 0 (.diverged "count" ⟨3⟩ 2) 3 ∧
    Stops (addUpTo 1) [counting] [⟨2⟩, ⟨3⟩] 1 0 (.staleHandle 1) 1 := by
  have hrest : (fixpoint (addUpTo 9) [counting] [⟨2⟩, ⟨3⟩] 2).run 0 = (.ok ⟨3, 2, 3⟩, 3) :=
    Run.outcome_eq.2 ⟨by decide +kernel, by decide +kernel⟩
  have hpast : (fixpoint (addUpTo 9) [counting] [⟨2⟩, ⟨3⟩] 1).run 0 =
      (.error (.diverged "count" ⟨3⟩ 2), 3) :=
    Run.outcome_eq.2 ⟨by decide +kernel, by decide +kernel⟩
  have hlimit : (fixpoint (addUpTo 1) [counting] [⟨2⟩, ⟨3⟩] 1).run 0 =
      (.error (.staleHandle 1), 1) := Run.outcome_eq.2 ⟨by decide +kernel, by decide +kernel⟩
  have houtcome := fun limit => fixpoint_outcome (addUpTo limit) [counting] [⟨2⟩, ⟨3⟩]
  refine ⟨((houtcome 9 2 0).2.1 _ _).1 hrest, ?_, ?_⟩
  · refine (((houtcome 9 1 0).2.2.1 _ _).1 hpast).resolve_left ?_
    rintro ⟨_, _, -, -, before, p, after, _, _, hsplit, -, hfails⟩
    have hp : p ∈ tries [counting] [⟨2⟩, ⟨3⟩] := by simp [hsplit]
    rw [List.mem_singleton.1 (mem_tries.1 hp).1] at hfails
    cases fault_of_addUpTo hfails
  · refine (((houtcome 1 1 0).2.2.1 _ _).1 hlimit).resolve_right ?_
    rintro ⟨_, -, -, _, -, hfault⟩
    cases hfault

end Rule

end TypeFlow
