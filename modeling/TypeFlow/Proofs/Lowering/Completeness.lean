import TypeFlow.Proofs.Lowering.Chains
import TypeFlow.Proofs.Lowering.Loops
import TypeFlow.Proofs.Lowering.Operators
import TypeFlow.Program
/-!
# Lowering is complete

Each rule of lowering fires exactly at the tasks of one kind (`Handles`). A firing does its task
and leaves every other one as it was, so that a rule finds all nodes of its list as they were when
the list was made (`sweepNodes_eq_ok`), and the rules behind it find the tasks of their own kinds
(`sweep_eq_ok`). When all tasks are done, no surface form is left: an operator token or a keyword
argument would be the part of one (`Parsed.not_isSurface`). So lowering succeeds, and loses nothing
(`run_complete`).
-/

namespace TypeFlow

namespace Lowering

open TypeFlow.Graph Program

variable {g g' g'' : Graph} {root n : NodeId} {ns ms : List NodeId}

/-! ## Several tasks -/

/-- What is achieved when the tasks at some nodes of a parsed program are done. -/
structure Done (g : Graph) (root : NodeId) (ns : List NodeId) (g' : Graph) : Prop where
  parsed : Parsed g' root
  tasks : ∀ x f, g'.Below root x ∧ task? g' x = some f ↔
    g.Below root x ∧ task? g x = some f ∧ x ∉ ns
  stays : ∀ x, g.Below root x → (g.kind x).isSurface = false →
    g'.Below root x ∧ (g'.kind x).isSurface = false

theorem Done.refl (hp : Parsed g root) : Done g root [] g where
  parsed := hp
  tasks x f := by simp
  stays x hx hk := ⟨hx, hk⟩

theorem Lowers.done (h : Lowers g root n g') : Done g root [n] g' where
  parsed := h.parsed
  tasks x f := by rw [h.tasks, List.mem_singleton]
  stays := h.stays

theorem Done.trans (h : Done g root ns g') (h' : Done g' root ms g'') :
    Done g root (ns ++ ms) g'' where
  parsed := h'.parsed
  tasks x f := by
    rw [h'.tasks, ← and_assoc, h.tasks, List.mem_append, not_or]
    simp only [and_assoc]
  stays x hx hk := by
    obtain ⟨hx', hk'⟩ := h.stays x hx hk
    exact h'.stays x hx' hk'

/-! ## One rule -/

/-- A rule fires exactly where there is a task of one kind. -/
structure Handles (r : GraphRule) (f : SurfaceKind) : Prop where
  applies : ∀ {g : Graph} {root n : NodeId}, Parsed g root → g.Below root n →
    (r.applies g n ↔ task? g n = some f)
  fires : ∀ {g : Graph} {root n : NodeId}, Parsed g root → g.Below root n →
    task? g n = some f → Fires r g root n

theorem task?_eq_some_form {f : SurfaceKind} (hf : isForm (.surface f)) :
    task? g n = some f ↔ g.kind n = .surface f := by
  rw [task?_eq_some]
  refine ⟨?_, fun h => Or.inl ⟨h, hf⟩⟩
  rintro (⟨h, -⟩ | ⟨rfl, -⟩)
  · exact h
  · cases hf

theorem task?_eq_some_kwArg : task? g n = some .kwArg ↔
    takesKeywords (g.kind n) ∧ ∃ x ∈ g.items n, g.kind x = .surface .kwArg := by
  rw [task?_eq_some]
  refine ⟨?_, fun h => Or.inr ⟨rfl, h⟩⟩
  rintro (⟨-, h⟩ | ⟨-, h⟩)
  · cases h
  · exact h

/-- Every node but the root, which is no place for a rule, has a parent. -/
theorem isAttached_of_kind (hp : Parsed g root) (hn : g.Below root n)
    (hk : g.kind n ≠ .decl .program) : g.isAttached n :=
  hp.isAttached hn fun h => hk (h ▸ hp.program)

/-- A rule that applies at the attached nodes of one surface kind handles that kind. -/
theorem handles_of_kind {r : GraphRule} {f : SurfaceKind} (hf : isForm (.surface f))
    (happlies : ∀ g n, r.applies g n = (g.kind n = .surface f && g.isAttached n))
    (hfires : ∀ {g : Graph} {root n : NodeId}, Parsed g root → g.Below root n →
      g.kind n = .surface f → Fires r g root n) : Handles r f where
  applies {g root n} hp hn := by
    rw [happlies, task?_eq_some_form hf, Bool.and_eq_true, decide_eq_true_iff]
    exact and_iff_left_of_imp fun hk => isAttached_of_kind hp hn (by rw [hk]; nofun)
  fires hp hn h := hfires hp hn ((task?_eq_some_form hf).1 h)

theorem handles_collectKeywordArgs : Handles collectKeywordArgs .kwArg where
  applies {g root n} hp hn := by
    have happlies : collectKeywordArgs.applies g n =
        (takesKeywords (g.kind n) && g.isAttached n && (g.items n).any (isKwArg g)) := rfl
    rw [happlies, task?_eq_some_kwArg]
    simp only [Bool.and_eq_true, List.any_eq_true, isKwArg, decide_eq_true_iff]
    refine and_congr (and_iff_left_of_imp fun hk => isAttached_of_kind hp hn ?_) Iff.rfl
    intro hprogram
    rw [hprogram] at hk
    cases hk
  fires hp hn h := fires_collectKeywordArgs hp hn (task?_eq_some_kwArg.1 h).1

theorem handles_foldOperators : Handles foldOperators .operatorSeq :=
  handles_of_kind rfl (fun _ _ => rfl) fires_foldOperators

theorem handles_lowerDotPipe : Handles lowerDotPipe .dotPipe :=
  handles_of_kind rfl (fun _ _ => rfl) fires_lowerDotPipe

theorem handles_lowerDotted : Handles lowerDotted .dotted :=
  handles_of_kind rfl (fun _ _ => rfl) fires_lowerDotted

theorem handles_lowerForIn : Handles lowerForIn .forIn :=
  handles_of_kind rfl (fun _ _ => rfl) fires_lowerForIn

/-- The kinds of tasks, in the order of the rules for them. -/
def taskKinds : List SurfaceKind := [.operatorSeq, .dotPipe, .dotted, .kwArg, .forIn]

theorem handles_rules : List.Forall₂ Handles rules taskKinds :=
  .cons handles_foldOperators (.cons handles_lowerDotPipe (.cons handles_lowerDotted
    (.cons handles_collectKeywordArgs (.cons handles_lowerForIn .nil))))

theorem Handles.tryAt_eq_ok {r : GraphRule} {f : SurfaceKind} (hr : Handles r f)
    (hp : Parsed g root) (hn : g.Below root n) (hf : task? g n = some f) :
    ∃ g', (r.tryAt Graph.commit n).run g = (.ok true, g') ∧ Lowers g root n g' := by
  obtain ⟨p, heffect, g', hcommit, hlowers⟩ := hr.fires hp hn hf
  refine ⟨g', ?_, hlowers⟩
  have hfire : r.fire? g n = .ok (some p) := by
    rw [Rule.fire?, if_pos ((hr.applies hp hn).2 hf), heffect]
  rw [Rule.tryAt, Run.run_bind_of_ok Run.run_get, hfire, Run.run_bind_of_ok hcommit]
  rfl

/-- A firing of a rule at a task of its kind keeps a property of the graph. -/
def Keeps (root : NodeId) (I : Graph → Prop) (r : GraphRule) (f : SurfaceKind) : Prop :=
  ∀ {g g' : Graph} {n : NodeId}, Parsed g root → g.Below root n → task? g n = some f →
    (r.tryAt Graph.commit n).run g = (.ok true, g') → I g → I g'

/-- A rule fires at every node of a list of its tasks: none of them is done on the way by a firing
elsewhere. What each firing keeps, all of them keep. -/
theorem sweepNodes_eq_ok {r : GraphRule} {f : SurfaceKind} {I : Graph → Prop} (hr : Handles r f)
    (hI : Keeps root I r f) : ∀ {ns : List NodeId} {g : Graph}, Parsed g root → I g → ns.Nodup →
      (∀ n ∈ ns, g.Below root n ∧ task? g n = some f) →
        ∃ g', (r.sweepNodes ns).run g = (.ok ns.length, g') ∧ Done g root ns g' ∧ I g'
  | [], g, hp, hg, _, _ => ⟨g, rfl, .refl hp, hg⟩
  | n :: ns, g, hp, hg, hnodup, htasks => by
    obtain ⟨hnew, hnodup⟩ := List.nodup_cons.1 hnodup
    obtain ⟨⟨hn, hf⟩, htasks⟩ := List.forall_mem_cons.1 htasks
    obtain ⟨h, htry, hlowers⟩ := hr.tryAt_eq_ok hp hn hf
    have hlater : ∀ x ∈ ns, h.Below root x ∧ task? h x = some f := by
      intro x hx
      obtain ⟨hbelow, hxf⟩ := htasks x hx
      exact (hlowers.tasks x f).2 ⟨hbelow, hxf, fun hxn => hnew (hxn ▸ hx)⟩
    obtain ⟨g', hrest, hdone, hg'⟩ :=
      sweepNodes_eq_ok hr hI hlowers.parsed (hI hp hn hf htry hg) hnodup hlater
    refine ⟨g', ?_, hlowers.done.trans hdone, hg'⟩
    rw [Rule.sweepNodes, Run.run_bind_of_ok htry, Run.run_bind_of_ok hrest]
    rfl

/-! ## All rules -/

/-- The tasks of one kind. -/
def tasksOf (g : Graph) (root : NodeId) (f : SurfaceKind) : List NodeId :=
  g.reachable root fun n => task? g n = some f

theorem mem_tasksOf {f : SurfaceKind} :
    n ∈ tasksOf g root f ↔ g.Below root n ∧ task? g n = some f := by
  rw [tasksOf, mem_reachable, decide_eq_true_iff]

theorem nodup_tasksOf (g : Graph) (root : NodeId) (f : SurfaceKind) : (tasksOf g root f).Nodup :=
  nodup_reachable _

/-- Where tasks of other kinds are done, as many of one kind are left as there were. -/
theorem Done.length_tasksOf (h : Done g root ns g') {f : SurfaceKind}
    (hns : ∀ n ∈ ns, task? g n ≠ some f) :
    (tasksOf g' root f).length = (tasksOf g root f).length := by
  refine (List.perm_of_nodup_nodup_toFinset_eq (nodup_tasksOf g' root f)
    (nodup_tasksOf g root f) (Finset.ext fun n => ?_)).length_eq
  rw [List.mem_toFinset, List.mem_toFinset, mem_tasksOf, mem_tasksOf, h.tasks, ← and_assoc]
  exact and_iff_left_of_imp fun hf hn => hns n hn hf.2

/-- Rules for different kinds of tasks do all tasks of these kinds, and keep what each firing
keeps. -/
theorem sweep_keeps {I : Graph → Prop} : ∀ {rs : List GraphRule} {fs : List SurfaceKind}
    {g : Graph}, List.Forall₂ Handles rs fs → List.Forall₂ (Keeps root I) rs fs → fs.Nodup →
      Parsed g root → I g →
      ∃ g' ns, (Rule.sweep root rs).run g =
          (.ok (fs.map fun f => (tasksOf g root f).length).sum, g') ∧ Done g root ns g' ∧
        (∀ n, n ∈ ns ↔ g.Below root n ∧ ∃ f ∈ fs, task? g n = some f) ∧ I g'
  | [], [], g, _, _, _, hp, hg => ⟨g, [], rfl, .refl hp, by simp, hg⟩
  | r :: rs, f :: fs, g, .cons hr hrs, .cons hI hIs, hnodup, hp, hg => by
    obtain ⟨hnew, hnodup⟩ := List.nodup_cons.1 hnodup
    have hnodes : g.reachable root (r.applies g) = tasksOf g root f :=
      List.filter_congr fun n hn => by
        rw [Bool.eq_iff_iff, hr.applies hp (mem_visits_down.1 hn), decide_eq_true_iff]
    have htasks : ∀ n ∈ tasksOf g root f, g.Below root n ∧ task? g n = some f :=
      fun n hn => mem_tasksOf.1 hn
    obtain ⟨h, hfirst, hdone, hh⟩ :=
      sweepNodes_eq_ok hr hI hp hg (nodup_tasksOf g root f) htasks
    obtain ⟨g', ns, hrest, hdone', hns, hg'⟩ := sweep_keeps hrs hIs hnodup hdone.parsed hh
    have hother : ∀ k ∈ fs, ∀ n ∈ tasksOf g root f, task? g n ≠ some k := by
      intro k hk n hn hkn
      rw [(mem_tasksOf.1 hn).2, Option.some.injEq] at hkn
      exact hnew (hkn ▸ hk)
    refine ⟨g', tasksOf g root f ++ ns, ?_, hdone.trans hdone', fun n => ?_, hg'⟩
    · have hlengths : fs.map (fun k => (tasksOf h root k).length) =
          fs.map fun k => (tasksOf g root k).length :=
        List.map_congr_left fun k hk => hdone.length_tasksOf (hother k hk)
      rw [Rule.sweep, Run.run_bind_of_ok Run.run_get, hnodes, Run.run_bind_of_ok hfirst,
        Run.run_bind_of_ok hrest, hlengths]
      rfl
    · rw [List.mem_append, mem_tasksOf, hns, List.exists_mem_cons_iff, and_or_left]
      refine or_congr Iff.rfl ⟨?_, ?_⟩
      · rintro ⟨hn, k, hk, hkn⟩
        obtain ⟨hn', hkn', -⟩ := (hdone.tasks n k).1 ⟨hn, hkn⟩
        exact ⟨hn', k, hk, hkn'⟩
      · rintro ⟨hn, k, hk, hkn⟩
        have hin := (hdone.tasks n k).2 ⟨hn, hkn, fun h => hother k hk n h hkn⟩
        exact ⟨hin.1, k, hk, hin.2⟩

theorem sweep_eq_ok {rs : List GraphRule} {fs : List SurfaceKind}
    (hrs : List.Forall₂ Handles rs fs) (hnodup : fs.Nodup) (hp : Parsed g root) :
    ∃ g' ns, (Rule.sweep root rs).run g =
        (.ok (fs.map fun f => (tasksOf g root f).length).sum, g') ∧
      Done g root ns g' ∧ ∀ n, n ∈ ns ↔ g.Below root n ∧ ∃ f ∈ fs, task? g n = some f := by
  have hkeeps : List.Forall₂ (Keeps root fun _ => True) rs fs :=
    hrs.imp fun _ _ _ _ _ _ _ _ _ _ _ => trivial
  obtain ⟨g', ns, hsweep, hdone, hns, -⟩ := sweep_keeps hrs hkeeps hnodup hp trivial
  exact ⟨g', ns, hsweep, hdone, hns⟩

/-! ## Nothing is left -/

theorem mem_taskKinds {f : SurfaceKind} (h : task? g n = some f) : f ∈ taskKinds := by
  rcases task?_eq_some.1 h with ⟨-, hf⟩ | ⟨rfl, -⟩
  · revert hf
    cases f <;> decide
  · decide

theorem exists_surface {k : NodeKind} (h : k.isSurface) : ∃ f, k = .surface f := by
  cases k with
  | surface f => exact ⟨f, rfl⟩
  | _ => cases h

/-- A parsed program without tasks has no surface form: one that is not a task itself is a part of
one. -/
theorem not_isSurface_of_tasks (hp : Parsed g root)
    (hnone : ∀ n, g.Below root n → task? g n = none) (hn : g.Below root n) :
    (g.kind n).isSurface = false := by
  by_contra hsurface
  obtain ⟨f, hf⟩ := exists_surface (by simpa using hsurface)
  by_cases hform : isForm (.surface f) = true
  · have htask := (task?_eq_some_form hform).2 hf
    rw [hnone n hn] at htask
    cases htask
  · have hroot : n ≠ root := by
      rintro rfl
      rw [hp.program] at hf
      cases hf
    obtain ⟨y, hy, hparent⟩ := hp.exists_parent hn hroot
    obtain ⟨e, he, rfl⟩ := (mem_parents_limbs hp.balanced).1 hparent
    have hadmits := admits_iff.1 (hp.admits_limb hy he)
    rw [hf] at hadmits
    have htask : ∃ k, task? g y = some k := by
      cases f with
      | opToken => exact ⟨_, (task?_eq_some_form rfl).2 (hadmits.1 rfl)⟩
      | kwArg => exact ⟨.kwArg, (task?_iff hp hy).2 (Or.inr ⟨rfl, (hadmits.2 rfl).1, e, he, hf⟩)⟩
      | operatorSeq | dotPipe | dotted | forIn => exact absurd rfl hform
    obtain ⟨k, hk⟩ := htask
    rw [hnone y hy] at hk
    cases hk

/-- Where all tasks are done, no surface form is left. -/
theorem Done.not_isSurface (hdone : Done g root ns g')
    (hns : ∀ n, n ∈ ns ↔ g.Below root n ∧ ∃ f ∈ taskKinds, task? g n = some f) :
    ∀ n, g'.Below root n → (g'.kind n).isSurface = false := by
  refine fun n hn => not_isSurface_of_tasks hdone.parsed (fun n hn => ?_) hn
  refine Option.eq_none_iff_forall_ne_some.2 fun f hf => ?_
  obtain ⟨hbelow, hf', hnot⟩ := (hdone.tasks n f).1 ⟨hn, hf⟩
  exact hnot ((hns n).2 ⟨hbelow, f, mem_taskKinds hf', hf'⟩)

/-! ## The run -/

/-- A call with keyword arguments among its items. -/
def hasKeywords (g : Graph) (n : NodeId) : Bool :=
  takesKeywords (g.kind n) && (g.items n).any (isKwArg g)

theorem task?_eq_some_iff_hasKeywords : task? g n = some .kwArg ↔ hasKeywords g n := by
  rw [task?_eq_some_kwArg, hasKeywords, Bool.and_eq_true, List.any_eq_true]
  simp only [isKwArg, decide_eq_true_iff]

theorem isForm_eq : isForm (g.kind n) = (task? g n).any (· ≠ .kwArg) := by
  rw [Bool.eq_iff_iff, Option.any_eq_true]
  constructor
  · intro h
    obtain ⟨f, hf⟩ := exists_surface (isSurface_of_isForm h)
    rw [hf] at h
    refine ⟨f, (task?_eq_some_form h).2 hf, decide_eq_true ?_⟩
    rintro rfl
    cases h
  · rintro ⟨f, hf, hne⟩
    rcases task?_eq_some.1 hf with ⟨hk, h⟩ | ⟨rfl, -⟩
    · rw [hk, h]
    · exact absurd rfl (of_decide_eq_true hne)

theorem length_tasksOf_sum (g : Graph) (root : NodeId) :
    (taskKinds.map fun f => (tasksOf g root f).length).sum =
      (g.reachable root fun n => isForm (g.kind n)).length +
        (g.reachable root (hasKeywords g)).length := by
  simp only [tasksOf, reachable, collect, ← List.countP_eq_length_filter, taskKinds, List.map_cons,
    List.map_nil, List.sum_cons, List.sum_nil]
  induction g.visits (.down root) with
  | nil => rfl
  | cons n ns ih =>
    have hn : hasKeywords g n = decide (task? g n = some .kwArg) := by
      rw [Bool.eq_iff_iff, decide_eq_true_iff, task?_eq_some_iff_hasKeywords]
    simp only [List.countP_cons, isForm_eq, hn] at ih ⊢
    cases hf : task? g n with
    | none => simpa using ih
    | some f =>
      have hmem := mem_taskKinds hf
      simp only [taskKinds, List.mem_cons, List.not_mem_nil, or_false] at hmem
      rcases hmem with rfl | rfl | rfl | rfl | rfl <;> simp at ih ⊢ <;> omega

theorem leftOver?_eq_none (h : ∀ n, g.Below root n → (g.kind n).isSurface = false) :
    leftOver? g root = none := by
  refine List.find?_eq_none.2 fun n hn => ?_
  rw [h n (mem_visits_down.1 hn)]
  nofun

/-- A parsed program is lowered with one firing for each form and for each call with keyword
arguments. No surface form is left, all other nodes stay, and the nodes below the root are still a
tree. -/
theorem run_complete (hp : Parsed g root) : ∃ g', (run root).run g =
      (.ok ((g.reachable root fun n => isForm (g.kind n)).length +
        (g.reachable root (hasKeywords g)).length), g') ∧
    (∀ n, g'.Below root n → (g'.kind n).isSurface = false) ∧
    (∀ n, g.Below root n → (g.kind n).isSurface = false → g'.Below root n) ∧
    ∀ n, g'.Below root n → (g'.parents n).length ≤ 1 := by
  obtain ⟨g', ns, hsweep, hdone, hns⟩ := sweep_eq_ok handles_rules (by decide) hp
  have hsurface := hdone.not_isSurface hns
  refine ⟨g', ?_, hsurface, fun n hn hk => (hdone.stays n hn hk).1, hdone.parsed.tree⟩
  rw [run, Run.run_bind_of_ok hsweep, Run.run_bind_of_ok Run.run_get,
    leftOver?_eq_none hsurface, length_tasksOf_sum]
  rfl

/-- A loop inside a loop over a pipe; its head is a sum, and its stage has a chain as a keyword
argument, whose last segment has a sum as another one. -/
def nestedSource : Build Unit := do
  let _ ← Program.function "main"
  let sum ← Program.operatorSeq (← Program.int 1) [("+", ← Program.int 2), ("*", ← Program.int 3)]
  let segment ← Program.call "g" [← Program.ident "x", ← Program.kwArg "k" sum]
  let chain ← Program.dotted (← Program.ident "o") [← Program.ident "f", segment]
  let head ← Program.operatorSeq (← Program.ident "a") [("+", ← Program.ident "b")]
  let pipe ← Program.dotPipe head [← Program.call "h" [← Program.kwArg "c" chain]]
  let outer ← Program.forIn ⟨2⟩ "i" pipe
  let inner ← Program.forIn outer "j" (← Program.ident "i")
  let _ ← Program.exprStmt inner (← Program.call "print" [← Program.ident "j"])

def nested : Graph := (nestedSource.run Program.empty).2

/-- Six forms and two calls with keyword arguments are lowered by eight firings. -/
theorem run_complete_nested : Parsed nested Program.root ∧
    ∃ g', (run Program.root).run nested = (.ok 8, g') ∧
      (∀ n, g'.Below Program.root n → (g'.kind n).isSurface = false) ∧
      (∀ n, nested.Below Program.root n → (nested.kind n).isSurface = false →
        g'.Below Program.root n) ∧
      ∀ n, g'.Below Program.root n → (g'.parents n).length ≤ 1 := by
  have hparsed : Parsed nested Program.root := by decide +kernel
  have hforms : (nested.reachable Program.root fun n => isForm (nested.kind n)).length = 6 := by
    decide +kernel
  have hcalls : (nested.reachable Program.root (hasKeywords nested)).length = 2 := by
    decide +kernel
  have hrun := run_complete hparsed
  rw [hforms, hcalls] at hrun
  exact ⟨hparsed, hrun⟩

end Lowering

end TypeFlow
