import TypeFlow.Proofs.Reference.Recollected
import TypeFlow.Proofs.Reference.Resolved
import TypeFlow.Proofs.Rule.Endings
/-!
# Tying references again

Where a run has ended well, a second one finds nothing to tie and counts the same definitions,
functions and classes (`Reference.run_twice`). But it is not without effect: collecting scopes again
puts new locals in the place of those that the first run has made, and the ties stay where they are.
So the second run takes from below the root just the definitions that the first one has made
(`run_twice_loses_local` is a program on which it does).
-/

namespace TypeFlow

open TypeFlow.Graph Program

namespace Reference

open Scopes

variable {s s' : Scopes} {g c h h' : Graph} {root n d : NodeId} {r : GraphRule} {p : Patch}
  {report : Report} {ceiling : Nat}

/-! ## What the first run changes -/

/-- A second collection reads the nodes from before the first one as that did. -/
theorem Retied.rereads (hc : Retied c h) (hgc : Grows g c) : Rereads g h where
  has n hn := by
    rw [has, hc.size]
    exact hgc.has n hn
  kind n hn k hk := by rw [hc.kind n k hk, hgc.kind n hn]
  payload n hn := (hc.payload n).trans (hgc.payload n hn)
  outgoing n hn := by
    have hsplit : ∀ es : List Edge,
        es.filter (isRead g n) = (es.filter (·.role ≠ .ref)).filter (g.isFixed n) := by
      intro es
      rw [List.filter_filter]
      exact List.filter_congr fun e _ => Bool.and_comm _ _
    have hswap : ∀ es : List Edge,
        es.filter (isRead g n) = (es.filter (g.isFixed n)).filter (·.role ≠ .ref) := by
      intro es
      rw [List.filter_filter]
      rfl
    rw [hsplit, hc.outgoing, ← hsplit, hswap, hgc.outgoing n hn, ← hswap]

/-- A rule fires at nodes only that are not tied. -/
theorem child?_of_fire? (hr : r ∈ rules s) (hfire : r.fire? h n = .ok (some p)) :
    h.child? n .ref = none := by
  have happlies : r.applies h n = true := by
    by_contra hnot
    rw [Rule.fire?, if_neg hnot] at hfire
    cases hfire
  have hloose : ∃ k, isLoose h n k := by
    simp only [rules, List.mem_cons, List.not_mem_nil, or_false] at hr
    rcases hr with rfl | rfl | rfl | rfl
    · exact ⟨_, happlies⟩
    · exact ⟨_, (Bool.and_eq_true_iff.1 happlies).1⟩
    · exact ⟨_, happlies⟩
    · exact ⟨_, happlies⟩
  obtain ⟨k, hloose⟩ := hloose
  simpa [isLoose, hasChild] using (Bool.and_eq_true_iff.1 hloose).2

theorem retied_of_fixpoint {nodes : List NodeId} {stats : Stats}
    (hrun : (Rule.fixpoint Graph.commit (rules s) nodes ceiling).run c = (.ok stats, h)) :
    Retied c h := by
  refine Rule.invariant_of_fixpoint (I := Retied c) (fun r hr n _ t t' ht hfires => ?_)
    (.refl c) hrun
  obtain ⟨p, hfire, hcommit⟩ := hfires
  obtain ⟨k, d?, u, ha, hm, hmarks⟩ :=
    answer_of_fire? hr hfire rfl rfl (child?_of_fire? hr hfire)
  obtain rfl : u = t' := by
    rw [hmarks] at hcommit
    exact (Run.outcome_eq.1 hcommit).2
  exact ht.marks ha hm

/-! ## Nothing is left to tie -/

/-- No rule applies to a node, nor does the last check stop at it. -/
structure Done (h : Graph) (n : NodeId) : Prop where
  loose : ∀ k ∈ [NodeKind.expr .ident, .expr .call, .type .named], isLoose h n k = false
  ownField : ∀ r, h.child? n .receiver = some r → h.kind r = .expr .selfRef →
    isLoose h n (.expr .fieldGet) = false

theorem done_of_quiet (hquiet : ∀ r ∈ rules s, r.fire? h n = .ok none)
    (hcheck : isUnresolved h n = false) : Done h n := by
  have htied : ∀ k, (h.kind n = k → ∃ d, h.child? n .ref = some d) → isLoose h n k = false := by
    intro k hk
    by_cases hkind : h.kind n = k
    · obtain ⟨d, hd⟩ := hk hkind
      simp [isLoose, hasChild, hd]
    · simp [isLoose, hkind]
  have hident := htied _ (tied_of_identRule (hquiet (identRule s) (by simp [rules])))
  obtain ⟨hcall, hnamed⟩ : isLoose h n (.expr .call) = false ∧
      isLoose h n (.type .named) = false := by simpa [isUnresolved] using hcheck
  refine ⟨by simp [hident, hcall, hnamed], fun r hr hself => htied _ fun hkind => ?_⟩
  exact tied_of_selfFieldRule (hquiet (selfFieldRule s) (by simp [rules])) hkind hr hself

theorem Done.applies (hn : Done h n) (hr : r ∈ rules s) : r.applies h n = false := by
  simp only [rules, List.mem_cons, List.not_mem_nil, or_false] at hr
  rcases hr with rfl | rfl | rfl | rfl
  · exact hn.loose _ (by simp)
  · cases hreceiver : h.child? n .receiver with
    | none => simp [selfFieldRule, hreceiver]
    | some r =>
      by_cases hself : h.kind r = .expr .selfRef
      · simp [selfFieldRule, hn.ownField r hreceiver hself]
      · simp [selfFieldRule, hreceiver, hself]
  · exact hn.loose _ (by simp)
  · exact hn.loose _ (by simp)

theorem Done.isUnresolved (hn : Done h n) : isUnresolved h n = false := by
  simp [Reference.isUnresolved, hn.loose]

/-- Growing leaves nothing to tie where nothing was left. -/
theorem Done.grows (hd : Done h n) (hhc : Grows h c) (hn : h.has n)
    (hreceiver : ∀ r, h.child? n .receiver = some r → h.has r) : Done c n := by
  have hloose : ∀ k, isLoose c n k = isLoose h n k := fun k => by
    rw [isLoose, isLoose, hasChild, hasChild, hhc.kind n hn,
      hhc.child?_eq (r := .ref) hn (by decide)]
  refine ⟨fun k hk => (hloose k).trans (hd.loose k hk), fun r hr hself => ?_⟩
  rw [hhc.child?_eq (r := .receiver) hn (by decide)] at hr
  rw [hhc.kind r (hreceiver r hr)] at hself
  exact (hloose _).trans (hd.ownField r hr hself)

theorem done_of_not_reference (hn : ∀ k ∈ [NodeKind.expr .ident, .expr .call, .type .named,
    .expr .fieldGet], c.kind n ≠ k) : Done c n := by
  have hloose : ∀ k, c.kind n ≠ k → isLoose c n k = false := fun k hk => by simp [isLoose, hk]
  refine ⟨fun k hk => hloose k (hn k ?_), fun _ _ _ => hloose _ (hn _ (by simp))⟩
  rw [show ([.expr .ident, .expr .call, .type .named, .expr .fieldGet] : List NodeKind) =
    [.expr .ident, .expr .call, .type .named] ++ [.expr .fieldGet] from rfl]
  exact List.mem_append_left _ hk

theorem quiet_of_done {nodes : List NodeId} (h : ∀ n ∈ nodes, Done c n) :
    Rule.Quiet (rules s) nodes c := fun _ hr n hn => Or.inl ((h n hn).applies hr)

theorem checkResolved_of_done (h : ∀ n, c.Below root n → Done c n) :
    checkResolved c root = .ok () := by
  have hnone : c.first? (.down root) (isUnresolved c) = none :=
    List.find?_eq_none.2 fun n hn => by simp [(h n (mem_visits_down.1 hn)).isUnresolved]
  rw [checkResolved, hnone]

/-! ## The second run -/

section Abreast

variable (ha : Abreast g h s c s' h') (hg : g.WellKept) (hch : Retied c h)
include ha hg hch

/-- After the second collection nothing is left to tie below the root. -/
theorem done_of_abreast (hroot : g.has root) (hdone : ∀ n, h.Below root n → Done h n)
    (hn : h'.Below root n) : Done h' n := by
  have hgh : Rereads g h := hch.rereads ha.first.toGrows
  rcases ha.old_or_new hgh hch.outgoing hg hroot hn with ⟨hold, hbelow⟩ | hnew
  · refine (hdone n hbelow).grows ha.second.toGrows (hgh.has n hold) fun r hr => ?_
    rw [hgh.child?_eq (r := .receiver) hold nofun nofun] at hr
    exact hgh.has r (hg.has_target (mem_of_child? hr))
  · cases hhas : h'.has n with
    | false =>
      -- no node of the graph: it has the kind of one without references
      have hkind : h'.kind n = .stmt .block := kind_of_not_has hhas
      exact done_of_not_reference (by simp [hkind])
    | true =>
      rcases ha.second.made n hnew hhas with hkind | hkind
      · exact done_of_not_reference (by simp [hkind])
      · exact done_of_not_reference (by simp [hkind])

end Abreast

theorem report_of_run (hcollect : (collect root).run g = (.ok s, c))
    (hrun : (run root ceiling).run g = (.ok report, h)) :
    report = ⟨s.definitions, s.functions.length, s.classes.length, report.stats⟩ := by
  rw [run_of_collect hcollect] at hrun
  obtain ⟨stats, t, -, hrun⟩ := Run.run_bind_eq_ok.1 hrun
  rw [Run.run_bind_of_ok Run.run_get, Run.run_bind_eq_ok] at hrun
  obtain ⟨_, u, -, hrun⟩ := hrun
  cases (Run.outcome_eq.1 hrun).1
  rfl

/-- Where nothing is left to tie, a run only collects scopes. -/
theorem run_of_done (hcollect : (collect root).run g = (.ok s, c))
    (hdone : ∀ n, c.Below root n → Done c n) (ceiling : Nat) : (run root ceiling).run g =
      (.ok ⟨s.definitions, s.functions.length, s.classes.length, ⟨1, 0, 0⟩⟩, c) := by
  have hquiet : Rule.Quiet (rules s) (c.reachable root fun _ => true) c :=
    quiet_of_done fun n hn => hdone n (mem_reachable.1 hn).1
  have hfix : (Rule.fixpoint Graph.commit (rules s) (c.reachable root fun _ => true)
      ceiling).run c = (.ok ⟨1, 0, 0⟩, c) := Rule.run_settle_of_quiet hquiet
  rw [run_of_collect hcollect, Run.run_bind_of_ok hfix, Run.run_bind_of_ok Run.run_get,
    checkResolved_of_done hdone]
  rfl

/-- A definition to which a reference is tied is a local exactly if collecting scopes has made
it. -/
theorem has_iff_of_answer (hs : Stage g root (Listed g root (g.items root)) s c)
    (hg : Outlined g root) (hsound : s.Sound c root) {kind : NodeKind}
    (ha : Answer s c n kind (some d)) : g.has d ↔ c.kind d ≠ .decl .varDef := by
  have hgc := hs.sprouts.grows
  have hof : ∀ k, k ≠ DeclKind.varDef → g.has d → g.kind d = .decl k →
      (g.has d ↔ c.kind d ≠ .decl .varDef) := fun k hne hhas hkind =>
    ⟨fun _ => by rw [hgc.kind d hhas, hkind]; simpa using hne, fun _ => hhas⟩
  have htable : ∀ {host t name}, s.table? host = some t → t.get? name = some d →
      (g.has d ↔ c.kind d ≠ .decl .varDef) := fun ht hd => by
    rcases (hs.member_or_local hg ht hd).2 with ⟨k, hne, hmember⟩ | ⟨-, hkind, hnew⟩
    · have hkind := (mem_of_member? hmember).2.1
      exact hof k hne (has_of_kind hkind nofun) hkind
    · simp [hkind, hnew]
  have hlookup : ∀ {name}, s.lookup? c n name = some d → (g.has d ↔ c.kind d ≠ .decl .varDef) :=
    fun hd => by
      obtain ⟨host, t, ht, hd⟩ := exists_table_of_lookup? hd
      exact htable ht hd
  have htop : ∀ {k}, k ≠ DeclKind.varDef → d ∈ c.items root → c.kind d = .decl k →
      (g.has d ↔ c.kind d ≠ .decl .varDef) := fun hne hitem hkind => by
    have hhas : g.has d := by
      rw [hgc.items_eq hg.has] at hitem
      exact hg.has_below (Below.root.of_mem_items hitem)
    exact ⟨fun _ => by rw [hkind]; simpa using hne, fun _ => hhas⟩
  cases ha with
  | ident _ _ hd =>
    rcases Option.or_eq_some_iff.1 hd with hd | ⟨-, hd⟩
    · exact hlookup hd
    · exact htop (k := .function) nofun (hsound.function hd).1 (hsound.function hd).2
  | ownField _ hd =>
    obtain ⟨cls, -, hd⟩ := Option.bind_eq_some_iff.1 hd
    obtain ⟨t, ht, hd⟩ := Option.bind_eq_some_iff.1 hd
    exact htable ht hd
  | dynCall _ hd => exact hlookup hd
  | call _ hd => exact htop (k := .function) nofun (hsound.function hd).1 (hsound.function hd).2
  | objectInit _ hd | named _ hd =>
    exact htop (k := .classDecl) nofun (hsound.class hd).1 (hsound.class hd).2

/-- Where a run has ended well, a second one does under every ceiling, fires nothing, and counts
what the first one has counted. Of what lay below the root between the runs it takes away just what
the first run has made. So in a program that had no ties before, the definition to which a reference
is tied lies below the root afterwards exactly if it is not a local. -/
theorem run_twice (hg : g.WellKept) (hplain : PlainBodies g) (hroot : g.has root)
    (hrun : (run root ceiling).run g = (.ok report, h)) (again : Nat) :
    ∃ h', (run root again).run h = (.ok { report with stats := ⟨1, 0, 0⟩ }, h') ∧
      (∀ d, h.Below root d → (h'.Below root d ↔ g.has d)) ∧
      (Unscoped g root → ∀ n d, h'.Below root n → h'.child? n .ref = some d →
        (h'.Below root d ↔ h'.kind d ≠ .decl .varDef)) := by
  obtain ⟨s, c, hcollect, -⟩ := Run.run_bind_eq_ok.1 hrun
  obtain ⟨stats, hfix, hcheck⟩ := fixpoint_of_run hcollect hrun
  -- the first collection, abreast of itself
  obtain ⟨_, _, -, hfirst⟩ := follows_collect hg hplain (.refl g)
    (fun n _ => length_scopesOf hg n) hroot s c hcollect
  have hch : Retied c h := retied_of_fixpoint hfix
  have hgh : Rereads g h := hch.rereads hfirst.first.toGrows
  have hone : ∀ n, g.has n → (scopesOf h n).length ≤ 1 := fun n hn => by
    rw [scopesOf_eq hch.outgoing]
    rcases hfirst.locals n hn with ⟨hsame, -⟩ | ⟨a, -, hnew, -⟩
    · rw [hsame]
      exact length_scopesOf hg n
    · rw [hnew, List.length_singleton]
  obtain ⟨s', h', hcollect', ha⟩ := follows_collect hg hplain hgh hone hroot s c hcollect
  have hdone : ∀ n, h.Below root n → Done h n := fun n hn =>
    done_of_quiet (fun r hr => Rule.quiet_of_fixpoint hfix r hr n
      (mem_reachable.2 ⟨(hch.below_iff root n).1 hn, rfl⟩)) (resolved_of_checkResolved hcheck hn)
  have hlost : ∀ d, h.Below root d → (h'.Below root d ↔ g.has d) := fun d hd => by
    have hhas : h.has d := by
      rw [has, hch.size]
      exact hfirst.first.has_below hg hroot ((hch.below_iff root d).1 hd)
    rw [ha.below_iff hgh hch.outgoing hg hroot hhas]
    exact and_iff_left hd
  refine ⟨h', ?_, hlost, fun hu n d hn hd => ?_⟩
  · rw [run_of_done hcollect' (fun n hn => done_of_abreast ha hg hch hroot hdone hn),
      definitions_eq ha.outline, ha.functions, ha.classes, report_of_run hcollect hrun]
  · obtain ⟨s₁, c₁, hcollect₁, hs, -⟩ := yields_collect hu
    obtain ⟨hsame, rfl⟩ := Run.outcome_eq.1 (hcollect₁.symm.trans hcollect)
    obtain rfl := Except.ok.inj hsame
    have hl : Linked s₁ c₁ h := linked_of_fixpoint (hs.sprouts.grows.untied hu.untied) hfix
    have hsound : s₁.Sound c₁ root := ((Run.keeps_iff.1 (keeps_collect g root)).1 _ _ hcollect).2
    have hold : h.has n := by
      rcases ha.old_or_new hgh hch.outgoing hg hroot hn with ⟨hold, -⟩ | hnew
      · exact hgh.has n hold
      · have hitem := (ha.second.inner n hnew _ (mem_of_child? hd)).1
        cases hitem
    rw [ha.second.child?_eq (r := .ref) hold nofun] at hd
    have hanswer : Answer s₁ c₁ n (h.kind n) (some d) := by
      rcases hl.answer n with ⟨-, hnone⟩ | hanswer
      · cases hnone.symm.trans hd
      · rwa [hd] at hanswer
    have hbelow : h.Below root d :=
      (hch.below_iff root d).2 (hs.below_of_answer hu.toOutlined hsound hanswer)
    have hhas : h.has d := by
      rw [has, hch.size]
      exact (hs.sprouts.outlined hu.toOutlined).has_below
        (hs.below_of_answer hu.toOutlined hsound hanswer)
    rw [hlost d hbelow, has_iff_of_answer hs hu.toOutlined hsound hanswer,
      ha.second.kind d hhas, ne_eq, ne_eq, hch.kind d (.decl .varDef) rfl]

/-- A function that reads its parameter and a local. -/
def rememberingSource : Build Unit := do
  let main ← Program.function "main"
  let _ ← Program.param main "n" none
  let _ ← Program.varInit ⟨2⟩ "x" none (← Program.ident "n")
  let _ ← Program.exprStmt ⟨2⟩ (← Program.ident "x")

def remembering : Graph := (rememberingSource.run Program.empty).2

/-- The program after a run. -/
def remembered : Graph := ((run Program.root 1).run remembering).2

/-- A second run counts what the first one did. The parameter stays where it is, and the local is
lost. -/
theorem run_twice_remembering : remembering.WellKept ∧ PlainBodies remembering ∧
    remembering.has Program.root ∧
    (run Program.root 1).run remembering = (.ok ⟨2, 1, 0, ⟨2, 1, 3⟩⟩, remembered) ∧
    ∃ h', (run Program.root 0).run remembered = (.ok ⟨2, 1, 0, ⟨1, 0, 0⟩⟩, h') ∧
      h'.Below Program.root ⟨3⟩ ∧ ¬h'.Below Program.root ⟨10⟩ ∧
      ∀ n d, h'.Below Program.root n → h'.child? n .ref = some d →
        (h'.Below Program.root d ↔ h'.kind d ≠ .decl .varDef) := by
  have hunscoped : Unscoped remembering Program.root := by decide +kernel
  have hplain : PlainBodies remembering := by decide +kernel
  have hrun : ((run Program.root 1).run remembering).1 = .ok ⟨2, 1, 0, ⟨2, 1, 3⟩⟩ := by
    decide +kernel
  have hbelow : ⟨3⟩ ∈ remembered.reachable Program.root (fun _ => true) ∧
      ⟨10⟩ ∈ remembered.reachable Program.root (fun _ => true) ∧ remembering.has ⟨3⟩ ∧
      remembering.has ⟨10⟩ = false := by decide +kernel
  obtain ⟨hparam, hlocal, hold, hnew⟩ := hbelow
  obtain ⟨h', hrun', hlost, hties⟩ := run_twice hunscoped.kept hplain hunscoped.has
    (Prod.fst_eq_iff.1 hrun) 0
  refine ⟨hunscoped.kept, hplain, hunscoped.has, Prod.fst_eq_iff.1 hrun, h', hrun', ?_, ?_,
    hties hunscoped⟩
  · exact (hlost _ (mem_reachable.1 hparam).1).2 hold
  · rw [hlost _ (mem_reachable.1 hlocal).1, hnew]
    nofun

/-- An identifier below the root of the program is tied, after a second run that fired nothing, to a
definition that does not lie below the root. -/
theorem run_twice_loses_local : ∃ h', (run Program.root 1).run remembered =
      (.ok ⟨2, 1, 0, ⟨1, 0, 0⟩⟩, h') ∧
    ((run Program.root 1).run remembering).1 = .ok ⟨2, 1, 0, ⟨2, 1, 3⟩⟩ ∧
    ∃ n d, h'.Below Program.root n ∧ h'.kind n = .expr .ident ∧ h'.child? n .ref = some d ∧
      ¬h'.Below Program.root d := by
  let h' := ((run Program.root 1).run remembered).2
  have hrun : ((run Program.root 1).run remembered).1 = .ok ⟨2, 1, 0, ⟨1, 0, 0⟩⟩ := by
    decide +kernel
  have hends : ⟨7⟩ ∈ h'.reachable Program.root (fun _ => true) ∧ h'.kind ⟨7⟩ = .expr .ident ∧
      h'.child? ⟨7⟩ .ref = some ⟨10⟩ ∧ ⟨10⟩ ∉ h'.reachable Program.root (fun _ => true) := by
    decide +kernel
  obtain ⟨hn, hkind, hd, hlost⟩ := hends
  refine ⟨h', Prod.fst_eq_iff.1 hrun, by decide +kernel, ⟨7⟩, ⟨10⟩, (mem_reachable.1 hn).1,
    hkind, hd, fun hbelow => hlost (mem_reachable.2 ⟨hbelow, rfl⟩)⟩

end Reference

end TypeFlow
