import TypeFlow.Program
import TypeFlow.Proofs.Reference.Answers
import TypeFlow.Proofs.Scope.Collect
/-!
# What tying references achieves

On a graph in which nothing is tied yet, one round of the rules does it all. A run that ends well
leaves no reference open below its root and ties each to a definition of its sort
(`Reference.Settled`). However a run ends, it changes no payload, and no edge but those from
functions to their locals (`Reference.Stays`), and with a ceiling above zero it never goes past it
(`Reference.run_settles`).
-/

namespace TypeFlow

open TypeFlow.Graph Program

namespace Scopes

variable {s : Scopes} {c g : Graph} {root n d : NodeId} {name : String}

theorem mem_of_lookup {α β : Type} [BEq α] [LawfulBEq α] {l : List (α × β)} {a : α} {b : β}
    (h : l.lookup a = some b) : (a, b) ∈ l := by
  obtain ⟨l₁, l₂, rfl, -⟩ := List.lookup_eq_some_iff.1 h
  simp

/-- What is found under a name stands in a table. -/
theorem exists_table_of_lookup? (h : s.lookup? g n name = some d) :
    ∃ host t, s.table? host = some t ∧ t.get? name = some d := by
  have hover : ∀ (hops : Nat) (host? : Option NodeId), s.lookupOver name hops host? = some d →
      ∃ host t, s.table? host = some t ∧ t.get? name = some d := by
    intro hops
    induction hops with
    | zero => nofun
    | succ hops ih =>
      rintro (_ | host) h
      · cases h
      · rw [lookupOver] at h
        split at h
        · cases h
        · next t ht =>
          split at h
          · next hd => exact ⟨host, t, ht, hd.trans h⟩
          · exact ih _ h
  unfold lookup? at h
  split at h
  · cases h
  · exact hover _ _ h

theorem Sound.isVariable_of_lookup? (hs : Sound s c root) (h : s.lookup? g n name = some d) :
    isVariable (c.kind d) := by
  obtain ⟨host, t, ht, hd⟩ := exists_table_of_lookup? h
  exact (hs.tables _ (mem_of_lookup ht) _ (mem_of_lookup hd)).isVariable

theorem Sound.function (hs : Sound s c root) (h : s.function? name = some d) :
    d ∈ c.items root ∧ c.kind d = .decl .function := by
  obtain ⟨-, hitem, -, hkind⟩ := hs.functions _ (mem_of_lookup h)
  exact ⟨hitem, hkind⟩

theorem Sound.class (hs : Sound s c root) (h : s.class? name = some d) :
    d ∈ c.items root ∧ c.kind d = .decl .classDecl := by
  obtain ⟨-, hitem, -, hkind⟩ := hs.classes _ (mem_of_lookup h)
  exact ⟨hitem, hkind⟩

/-- The field that is found is one of the nearest class. -/
theorem Sound.ownField (hs : Sound s c root) (h : Reference.ownField? s c n name = some d) :
    ∃ cls, c.nearestAncestor? n (fun m => c.kind m = .decl .classDecl) = some cls ∧
      d ∈ c.items cls ∧ c.kind d = .decl .field := by
  obtain ⟨cls, hcls, h⟩ := Option.bind_eq_some_iff.1 h
  obtain ⟨t, ht, hd⟩ := Option.bind_eq_some_iff.1 h
  have hclass : c.kind cls = .decl .classDecl := by simpa using List.find?_some hcls
  exact ⟨cls, hcls, (hs.tables _ (mem_of_lookup ht) _ (mem_of_lookup hd)).field hclass⟩

end Scopes

namespace Reference

variable {s : Scopes} {g c h : Graph} {root n d : NodeId}

/-- A function or a class of the program itself. -/
def TopLevel (h : Graph) (root : NodeId) (kind : DeclKind) (d : NodeId) : Prop :=
  d ∈ h.items root ∧ h.kind d = .decl kind

/-- No reference of a node is open: whatever it refers to, it is tied to a definition of the sort
that it must have. The node was made of the one of the same number in the graph `g`. -/
structure Settled (g h : Graph) (root n : NodeId) : Prop where
  ident : h.kind n = .expr .ident →
    ∃ d, h.child? n .ref = some d ∧ (isVariable (h.kind d) ∨ TopLevel h root .function d)
  call : h.kind n = .expr .call → ∃ d, h.child? n .ref = some d ∧ TopLevel h root .function d
  objectInit : g.kind n = .expr .call → h.kind n = .expr .objectInit →
    ∃ d, h.child? n .ref = some d ∧ TopLevel h root .classDecl d
  dynCall : g.kind n = .expr .call → h.kind n = .expr .dynCall →
    ∃ d, h.child? n .ref = some d ∧ isVariable (h.kind d)
  sysCall : g.kind n = .expr .call → h.kind n = .expr .sysCall →
    ∃ name, h.name? n = some name ∧ isBuiltin name
  named : h.kind n = .type .named → ∃ d, h.child? n .ref = some d ∧ TopLevel h root .classDecl d
  ownField : h.kind n = .expr .fieldGet →
    ∀ r, h.child? n .receiver = some r → h.kind r = .expr .selfRef →
      ∃ cls d, h.nearestAncestor? n (fun m => h.kind m = .decl .classDecl) = some cls ∧
        h.child? n .ref = some d ∧ d ∈ h.items cls ∧ h.kind d = .decl .field

/-! ## Quiet rules -/

theorem tied_of_identRule (hq : (identRule s).fire? h n = .ok none) (hk : h.kind n = .expr .ident) :
    ∃ d, h.child? n .ref = some d := by
  refine Option.ne_none_iff_exists'.1 fun hnone => ?_
  have happlies : (identRule s).applies h n = true := by
    simp [identRule, isLoose, hk, hasChild, hnone]
  rw [Rule.fire?, if_pos happlies] at hq
  obtain ⟨name, -, hq⟩ := Run.bind_eq_ok.1 hq
  split at hq <;> cases hq

theorem tied_of_selfFieldRule {r : NodeId} (hq : (selfFieldRule s).fire? h n = .ok none)
    (hk : h.kind n = .expr .fieldGet) (hr : h.child? n .receiver = some r)
    (hself : h.kind r = .expr .selfRef) : ∃ d, h.child? n .ref = some d := by
  refine Option.ne_none_iff_exists'.1 fun hnone => ?_
  have happlies : (selfFieldRule s).applies h n = true := by
    simp [selfFieldRule, isLoose, hk, hasChild, hnone, hr, hself]
  rw [Rule.fire?, if_pos happlies] at hq
  obtain ⟨name, -, hq⟩ := Run.bind_eq_ok.1 hq
  split at hq <;> cases hq

theorem local_checkResolved (h : Graph) (root : NodeId) : Local (checkResolved h root) := by
  unfold checkResolved
  split
  · exact local_ok _
  · refine (h.local_requireName _).bind fun name => ?_
    split <;> exact local_error rfl

theorem resolved_of_checkResolved (hok : checkResolved h root = .ok ()) (hn : h.Below root n) :
    isUnresolved h n = false := by
  unfold checkResolved at hok
  split at hok
  · next hnone => simpa using List.find?_eq_none.1 hnone n (mem_visits_down.2 hn)
  · obtain ⟨name, -, hok⟩ := Run.bind_eq_ok.1 hok
    split at hok <;> cases hok

/-! ## Settled nodes -/

theorem Linked.topLevel (hl : Linked s c h) {kind : DeclKind}
    (hd : d ∈ c.items root ∧ c.kind d = .decl kind) : TopLevel h root kind d :=
  ⟨by rw [hl.items_eq]; exact hd.1, (hl.kind_iff rfl d).2 hd.2⟩

theorem Linked.isVariable (hl : Linked s c h) (hd : isVariable (c.kind d)) :
    isVariable (h.kind d) := by
  have hsteady : isSteady (c.kind d) := by
    unfold Program.isVariable at hd
    split at hd <;> simp_all [isSteady]
  rwa [(hl.kind_iff hsteady d).2 rfl]

/-- Where the rules are quiet and the last check finds nothing, a node is settled. -/
theorem Linked.settled (hl : Linked s c h) (hs : s.Sound c root)
    (hquiet : ∀ r ∈ rules s, r.fire? h n = .ok none) (hcheck : isUnresolved h n = false) :
    Settled c h root n := by
  have hanswer : ∀ d, h.child? n .ref = some d → Answer s c n (h.kind n) (some d) := by
    intro d hd
    rcases hl.answer n with ⟨-, hnone⟩ | ha
    · rw [hd] at hnone
      cases hnone
    · rwa [hd] at ha
  have hmade : ∀ k, c.kind n = .expr .call → h.kind n = k → k ≠ .expr .call →
      Answer s c n k (h.child? n .ref) := by
    rintro k hk rfl hne
    rcases hl.answer n with ⟨hsame, -⟩ | ha
    · exact absurd (hsame.trans hk) hne
    · exact ha
  have htied : ∀ k, h.kind n = k → k = .expr .call ∨ k = .type .named →
      ∃ d, h.child? n .ref = some d := by
    rintro k hk hor
    refine Option.ne_none_iff_exists'.1 fun hnone => ?_
    rcases hor with rfl | rfl <;> simp [isUnresolved, isLoose, hk, hasChild, hnone] at hcheck
  refine ⟨fun hk => ?_, fun hk => ?_, fun hk hk' => ?_, fun hk hk' => ?_, fun hk hk' => ?_,
    fun hk => ?_, fun hk r hr hself => ?_⟩
  · obtain ⟨d, hd⟩ := tied_of_identRule (hquiet (identRule s) (by simp [rules])) hk
    refine ⟨d, hd, ?_⟩
    have ha := hanswer d hd
    rw [hk] at ha
    cases ha with
    | ident _ _ hd =>
      rcases Option.or_eq_some_iff.1 hd with hd | ⟨-, hd⟩
      · exact Or.inl (hl.isVariable (hs.isVariable_of_lookup? hd))
      · exact Or.inr (hl.topLevel (hs.function hd))
  · obtain ⟨d, hd⟩ := htied _ hk (Or.inl rfl)
    have ha := hanswer d hd
    rw [hk] at ha
    cases ha with
    | call _ hf => exact ⟨d, hd, hl.topLevel (hs.function hf)⟩
  · have ha := hmade _ hk hk' (by decide)
    generalize href : h.child? n .ref = d? at ha
    cases ha with
    | objectInit _ hc => exact ⟨_, rfl, hl.topLevel (hs.class hc)⟩
  · have ha := hmade _ hk hk' (by decide)
    generalize href : h.child? n .ref = d? at ha
    cases ha with
    | dynCall _ hv => exact ⟨_, rfl, hl.isVariable (hs.isVariable_of_lookup? hv)⟩
  · have ha := hmade _ hk hk' (by decide)
    generalize href : h.child? n .ref = d? at ha
    cases ha with
    | sysCall _ hname hb => exact ⟨_, (hl.name?_eq n).trans hname, hb⟩
  · obtain ⟨d, hd⟩ := htied _ hk (Or.inr rfl)
    have ha := hanswer d hd
    rw [hk] at ha
    cases ha with
    | named _ hc => exact ⟨d, hd, hl.topLevel (hs.class hc)⟩
  · obtain ⟨d, hd⟩ := tied_of_selfFieldRule (hquiet (selfFieldRule s) (by simp [rules])) hk hr hself
    have ha := hanswer d hd
    rw [hk] at ha
    cases ha with
    | ownField _ hf =>
      obtain ⟨cls, hcls, hitem, hfield⟩ := hs.ownField hf
      refine ⟨cls, d, ?_, hd, by rwa [hl.items_eq], (hl.kind_iff rfl d).2 hfield⟩
      rw [hl.nearestAncestor?_eq fun m => decide_eq_decide.2 (hl.kind_iff rfl m), hcls]

theorem Settled.of_grows (hgc : Grows g c) (hn : Settled c h root n) : Settled g h root n := by
  have hcall : g.kind n = .expr .call → c.kind n = .expr .call := by
    intro hk
    have hhas : g.has n := has_of_kind hk nofun
    exact (hgc.kind n hhas).trans hk
  exact ⟨hn.ident, hn.call, fun hk => hn.objectInit (hcall hk), fun hk => hn.dynCall (hcall hk),
    fun hk => hn.sysCall (hcall hk), hn.named, hn.ownField⟩

/-! ## The run -/

theorem run_of_collect {ceiling : Nat} (hcollect : (Scopes.collect root).run g = (.ok s, c)) :
    (run root ceiling).run g = (do
      let stats ← Rule.fixpoint Graph.commit (rules s) (c.reachable root fun _ => true) ceiling
      Run.ofExcept (checkResolved (← get) root)
      return (⟨s.definitions, s.functions.length, s.classes.length, stats⟩ : Report)).run c := by
  rw [run, Run.run_bind_of_ok hcollect, Run.run_bind_of_ok Run.run_get]

/-- A run that ends well goes on from the collected graph until the rules are quiet, and leaves
nothing open. -/
theorem fixpoint_of_run {ceiling : Nat} {report : Report}
    (hcollect : (Scopes.collect root).run g = (.ok s, c))
    (hrun : (run root ceiling).run g = (.ok report, h)) :
    ∃ stats, (Rule.fixpoint Graph.commit (rules s) (c.reachable root fun _ => true) ceiling).run c =
      (.ok stats, h) ∧ checkResolved h root = .ok () := by
  rw [run_of_collect hcollect] at hrun
  obtain ⟨stats, t, hfix, hrun⟩ := Run.run_bind_eq_ok.1 hrun
  rw [Run.run_bind_of_ok Run.run_get, Run.run_bind_eq_ok] at hrun
  obtain ⟨_, u, hcheck, hrun⟩ := hrun
  rw [Run.run_ofExcept] at hcheck
  obtain ⟨hok, rfl⟩ := Run.outcome_eq.1 hcheck
  obtain rfl := (Run.outcome_eq.1 hrun).2
  exact ⟨stats, hfix, hok⟩

theorem linked_of_fixpoint (hc : c.Untied) {nodes : List NodeId} {ceiling : Nat} {stats : Stats}
    (hrun : (Rule.fixpoint Graph.commit (rules s) nodes ceiling).run c = (.ok stats, h)) :
    Linked s c h :=
  Rule.invariant_of_fixpoint
    (fun r hr n _ t t' ht hfires => ((firesOnce_rules hc).step r hr n t t' ht hfires).1)
    (linked_refl hc) hrun

/-- What stays on the way from one graph to another: payloads, and edges in their order, but for
those from functions to their locals. The other graph may have ties besides. -/
def Stays (g h : Graph) : Prop :=
  ∀ n, g.has n → h.payload n = g.payload n ∧
    (h.outgoing n).filter (fun e => e.role ≠ .ref && g.isFixed n e) =
      (g.outgoing n).filter (g.isFixed n)

theorem Linked.stays (hl : Linked s c h) (hgc : Grows g c) : Stays g h := by
  refine fun n hn => ⟨(hl.payload n).trans (hgc.payload n hn), ?_⟩
  calc (h.outgoing n).filter (fun e => e.role ≠ .ref && g.isFixed n e)
      = ((h.outgoing n).filter (·.role ≠ .ref)).filter (g.isFixed n) := by
        rw [List.filter_filter]
        exact List.filter_congr fun e _ => Bool.and_comm _ _
    _ = (c.outgoing n).filter (g.isFixed n) := by rw [hl.outgoing]
    _ = (g.outgoing n).filter (g.isFixed n) := hgc.outgoing n hn

/-- Tying the references of an untied graph is done after one round, and settles all that lies
below the root. -/
theorem keeps_run (hg : g.Untied) (root : NodeId) {ceiling : Nat} (hceiling : 1 ≤ ceiling) :
    Run.Keeps (run root ceiling) g (Stays g) fun report h =>
      Stays g h ∧ report.stats.productive ≤ 1 ∧ report.stats.rounds ≤ 2 ∧
        ∀ n, h.Below root n → Settled g h root n := by
  unfold run
  have hcollect : Run.Keeps (Scopes.collect root) g (Stays g) fun s c =>
      Grows g c ∧ s.Sound c root :=
    (Scopes.keeps_collect g root).mono
      (fun c hgc => (linked_refl (s := .empty) (hgc.untied hg)).stays hgc) fun _ _ h => h
  refine hcollect.bind fun s c ⟨hgc, hs⟩ => Run.keeps_get_bind ?_
  have hc : c.Untied := hgc.untied hg
  refine (((firesOnce_rules hc).keeps_fixpoint (linked_refl hc) hceiling).mono
    (fun h hl => hl.stays hgc) fun _ _ h => h).bind
      fun stats h ⟨hl, hquiet, hproductive, hrounds⟩ => Run.keeps_get_bind ?_
  refine Run.keeps_ofExcept_bind (local_checkResolved h root) (hl.stays hgc) fun _ hcheck =>
    Run.keeps_pure ⟨hl.stays hgc, hproductive, hrounds, fun n hn => ?_⟩
  have hcandidate : n ∈ c.reachable root fun _ => true :=
    mem_reachable.2 ⟨(hl.below_iff root).1 hn, rfl⟩
  exact (hl.settled hs (fun r hr => hquiet r hr n hcandidate)
    (resolved_of_checkResolved hcheck hn)).of_grows hgc

/-- On a graph without tied nodes and with a ceiling above zero, no run goes past its ceiling, and
however it ends, payloads are what they were, and so are the edges from before, but for those from
functions to their locals. A run that ends well fired in at most one round and made at most two,
and every node below the root is settled then. -/
theorem run_settles (hg : g.Untied) (root : NodeId) {ceiling : Nat} (hceiling : 1 ≤ ceiling) :
    (∀ rule node rounds, ((run root ceiling).run g).1 ≠ .error (.diverged rule node rounds)) ∧
      Stays g ((run root ceiling).run g).2 ∧
        ∀ report h, (run root ceiling).run g = (.ok report, h) →
          report.stats.productive ≤ 1 ∧ report.stats.rounds ≤ 2 ∧
            ∀ n, h.Below root n → Settled g h root n := by
  obtain ⟨hok, herror⟩ := Run.keeps_iff.1 (keeps_run hg root hceiling)
  refine ⟨fun rule node rounds hrun => ?_, ?_, fun report h hrun => (hok report h hrun).2⟩
  · obtain ⟨hlocal, -⟩ := herror (.diverged rule node rounds) _ (Prod.fst_eq_iff.1 hrun)
    cases hlocal
  · rcases hrun : (run root ceiling).run g with ⟨fault | report, h⟩
    · exact (herror fault h hrun).2
    · exact (hok report h hrun).1

/-- A class with a method that reads a field of its own, and a function with a call of each sort, an
identifier and a named type. -/
def referringSource : Build Unit := do
  let point ← Program.classDecl "Point"
  let _ ← Program.field point "x" none none
  let _ ← Program.method point "get"
  let read ← Program.fieldGet (← Program.selfRef) "x"
  let _ ← Program.ret ⟨4⟩ (some read)
  let _ ← Program.function "main"
  let _ ← Program.param ⟨8⟩ "p" (some (← Program.namedType "Point"))
  let _ ← Program.varInit ⟨9⟩ "made" none (← Program.call "Point" [])
  let _ ← Program.exprStmt ⟨9⟩ (← Program.call "print" [← Program.ident "made"])
  let _ ← Program.exprStmt ⟨9⟩ (← Program.call "p" [])
  let _ ← Program.exprStmt ⟨9⟩ (← Program.call "main" [])

def referring : Graph := (referringSource.run Program.empty).2

/-- All references of the program are tied in one round, under the least ceiling. -/
theorem run_settles_referring : referring.Untied ∧ 1 ≤ 1 ∧
    ((run Program.root 1).run referring).1 = .ok ⟨3, 1, 1, ⟨2, 1, 8⟩⟩ ∧
    (∀ rule node rounds,
      ((run Program.root 1).run referring).1 ≠ .error (.diverged rule node rounds)) ∧
    Stays referring ((run Program.root 1).run referring).2 ∧
    ∀ n, ((run Program.root 1).run referring).2.Below Program.root n →
      Settled referring ((run Program.root 1).run referring).2 Program.root n := by
  have huntied : referring.Untied := by decide +kernel
  have hrun : ((run Program.root 1).run referring).1 = .ok ⟨3, 1, 1, ⟨2, 1, 8⟩⟩ := by
    decide +kernel
  obtain ⟨hceiling, hstays, hok⟩ := run_settles huntied Program.root (Nat.le_refl 1)
  obtain ⟨-, -, hsettled⟩ := hok _ _ (Prod.fst_eq_iff.1 hrun)
  exact ⟨huntied, Nat.le_refl 1, hrun, hceiling, hstays, hsettled⟩

end Reference

end TypeFlow
