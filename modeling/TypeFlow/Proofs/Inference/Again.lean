import TypeFlow.Proofs.Inference.Canonical
import TypeFlow.Proofs.Program.Colored
import TypeFlow.Proofs.Rule.Alike
/-!
# Inference on its own result

A second inference on the graph that a first one colored finds all functions with their return
slots (`withReturnSlots_of_colors`). The program reads alike, so that the same bounds are seeded
(`seeded_of_readsAs`), the rules do alike on them (`settled_of_readsAs`), and the same is counted
and colored (`colorAll_again`). So it reports the same, and colors everything alike (`run_again`).
-/

namespace TypeFlow

open TypeSet Program

/-! ## The same steps -/

namespace Flow

variable {g h : Graph} {root n : NodeId}

theorem ReadsAs.definition?_eq (hs : ReadsAs g h root) (hg : Resolved g root)
    (hn : g.Below root n) : definition? h n = definition? g n := by
  rw [definition?, definition?, hs.kind n hn, hs.child n .ref hn rfl nofun]
  refine if_congr Iff.rfl ?_ rfl
  cases hd : g.child? n .ref with
  | none => rfl
  | some d => simp only [Option.filter_some, hs.kind d (hg.tied n hn d hd).1]

/-- The same nodes get slots, in the same order. -/
theorem ReadsAs.bindAll_eq (hs : ReadsAs g h root) (hg : Resolved g root) {nodes : List NodeId}
    (hnodes : ∀ n ∈ nodes, g.Below root n) : bindAll h nodes = bindAll g nodes := by
  have hdefinition : ∀ n ∈ nodes, definition? h n = definition? g n := fun n hn =>
    hs.definition?_eq hg (hnodes n hn)
  have hown : bindOwn h .empty nodes = bindOwn g .empty nodes := by
    rw [bindOwn, bindOwn, List.filter_congr fun n hn => by rw [hdefinition n hn]]
  rw [bindAll, bindAll, hown]
  refine List.foldl_ext _ _ _ fun t n hn => ?_
  rw [bindReference, bindReference, hdefinition n hn]

end Flow

namespace Inference

variable {g h : Graph} {root n : NodeId} {t : BoundsTable} {allow : Bool} {ceiling : Nat}

section Reading

variable (hs : Flow.ReadsAs g h root) (hvisits : h.visits (.down root) = g.visits (.down root))

include hs hvisits

theorem typable_of_readsAs : typable h root = typable g root :=
  Graph.reachable_congr hvisits fun n hn => by rw [hs.kind n hn]

/-- A program that reads alike is seeded alike. -/
theorem seeded_of_readsAs (hg : Resolved g root) :
    seeded h root allow = seeded g root allow := by
  have hbelow : ∀ n ∈ typable g root, g.Below root n := fun n hn => (Graph.mem_reachable.1 hn).1
  have hinits : (h.reachable root fun n => h.kind n = .stmt .varInit) =
      g.reachable root fun n => g.kind n = .stmt .varInit :=
    Graph.reachable_congr hvisits fun n hn => by rw [hs.kind n hn]
  have hrequests : Flow.seedRequests h root allow (typable g root) =
      Flow.seedRequests g root allow (typable g root) := by
    rw [Flow.seedRequests, Flow.seedRequests, hinits,
      Run.mapM_congr fun n hn => Flow.seedNode_eq hs hg (hbelow n hn),
      Run.mapM_congr fun n hn => Flow.seedInit_eq hs (Graph.mem_reachable.1 hn).1]
  rw [seeded_eq, seeded_eq, typable_of_readsAs hs hvisits, hs.bindAll_eq hg hbelow, hrequests]

/-- On a table in order, the rules do alike in a program that reads alike. -/
theorem settled_of_readsAs (hg : Resolved g root) (ht : Tidy g root t) :
    settled h root ceiling t = settled g root ceiling t := by
  have halike : List.Forall₂
      (Rule.Alike Flow.commit (Tidy g root) (g.reachable root fun _ => true))
      ((Flow.rules g (Flow.classMethods g root)).map FlowRule.toRule)
      ((Flow.rules h (Flow.classMethods h root)).map FlowRule.toRule) := by
    rw [List.forall₂_map_left_iff, List.forall₂_map_right_iff, List.forall₂_iff_get]
    obtain ⟨hlength, hagree⟩ := List.forall₂_iff_get.1 (Flow.agree_rules hs hg)
    refine ⟨hlength, fun i hi hi' => ?_⟩
    have hr := List.get_mem (Flow.rules g (Flow.classMethods g root)) ⟨i, hi⟩
    have hagree := hagree i hi hi'
    refine ⟨hagree.name, fun n hn t ht => ?_, fun n hn t ht => ?_⟩
    · have hbelow := (Graph.mem_reachable.1 hn).1
      rw [FlowRule.fire?_toRule, FlowRule.fire?_toRule, hagree.applies n hbelow]
      refine ite_congr rfl (fun happlies => ?_) fun _ => rfl
      rw [hagree.asks n hbelow happlies t ht.leaves]
    · exact ht.tryAt hg hr (Graph.mem_reachable.1 hn).1
  unfold settled
  dsimp only
  rw [Graph.reachable_congr hvisits fun _ _ => rfl, Rule.run_fixpoint_congr halike ht]

end Reading

/-! ## Return slots -/

/-- Functions that have their return slots get no others. -/
theorem withReturnSlots_of_hasChild
    (hslots : ∀ f ∈ g.reachable root fun n => g.kind n = .decl .function,
      g.hasChild f .returnSlot) : withReturnSlots g root = g := by
  rw [Graph.withReturnSlots_eq]
  generalize (g.reachable root fun n => g.kind n = .decl .function) = fs at hslots
  induction fs with
  | nil => rfl
  | cons f fs ih =>
    obtain ⟨hf, hfs⟩ := List.forall_mem_cons.1 hslots
    rw [List.foldl_cons, Graph.withSlot_of_hasChild hf, ih hfs]

theorem withReturnSlots_of_colors (hg : Resolved g root)
    (hs : Graph.Colors (withReturnSlots g root) h) : withReturnSlots h root = h := by
  have hreads := hs.readsAs (resolved_withReturnSlots hg)
  refine withReturnSlots_of_hasChild fun f hf => ?_
  obtain ⟨hbelow, hkind⟩ := Graph.mem_reachable.1 hf
  have hbelow := (hreads.below f).1 hbelow
  rw [hreads.kind f hbelow] at hkind
  rw [hreads.hasChild hbelow (r := .returnSlot) rfl nofun]
  exact hasChild_withReturnSlots hg hbelow (of_decide_eq_true hkind)

/-! ## Coloring again -/

variable {g' : Graph} {colors : ColorStats}

/-- What an inference adds in the end are colors. -/
theorem colors_of_colorAll (hg : Resolved g root) (ht : Tidy g root t)
    (h : (Graph.colorAll t (typable g root)).run g = (.ok colors, g')) : Graph.Colors g g' := by
  have hcolored := colored_of_colorAll hg ht h
  obtain ⟨p, hrun, -, rfl⟩ := Graph.run_colorAll_eq_ok.1 h
  exact ⟨hcolored.kept, hcolored.grown, Palette.addsTypes_of_forM hrun⟩

/-- The second graph has the colors of the first: typable nodes of a program read alike, and what
is colored with a class keeps it. -/
structure SameColors (g : Graph) (root : NodeId) (g' g'' : Graph) : Prop where
  reading : ∀ n, g.Below root n → (g.kind n).isTypable →
    ∃ text, reading? g' n = some text ∧ reading? g'' n = some text
  cls : ∀ n c, g'.coloredType? n = some c → g'.kind c = .decl .classDecl →
    g''.coloredType? n = some c

/-- A color that is a class is the only one that fits. -/
theorem eq_of_fits_class {b : Bounds} {h h' : Graph} {c k : NodeId} (hc : Palette.Fits b h c)
    (hkind : h.kind c = .decl .classDecl) (hk : Palette.Fits b h' k) : k = c := by
  rcases hc with ⟨-, hvoid⟩ | ⟨he, hshows⟩
  · rw [hkind] at hvoid
    cases hvoid
  · have hcls := (Graph.Denotes.cls hkind).functional hshows.denotes
    rcases hk with ⟨he', -⟩ | ⟨-, hshows'⟩
    · exact absurd he' he
    · rw [← hcls] at hshows'
      cases hshows'.denotes with
      | cls _ => rfl

/-- A program that was colored from a table is colored from it again, and alike. -/
theorem colorAll_again (hg : Resolved g root) (ht : Tidy g root t)
    (h : (Graph.colorAll t (typable g root)).run g = (.ok colors, g')) :
    ∃ g'', (Graph.colorAll t (typable g root)).run g' = (.ok colors, g'') ∧
      SameColors g root g' g'' := by
  have hs := colors_of_colorAll hg ht h
  have hcolorable : ∀ n ∈ typable g root, Palette.Colorable g t n := by
    rcases verdict_of_colorAll hg ht h with ⟨hall, -⟩ | ⟨-, fault, hfault, -⟩
    · exact hall
    · cases hfault
  obtain ⟨p, hrun, rfl, rfl⟩ := Graph.run_colorAll_eq_ok.1 h
  have hfaithful := Palette.faithful_ofGraph hg.kept
  have hfaithful' := Palette.faithful_ofGraph hs.kept
  have hclass : ∀ c, g.kind c = .decl .classDecl → p.graph.kind c = .decl .classDecl := fun c hc =>
    (hs.grown.kind c (Graph.has_of_kind hc nofun)).trans hc
  have hover' : t.Over (Palette.ClassLeaf p.graph) := ht.over.mono fun x => ClassesIn.mono hclass x
  have hhas' : ∀ n ∈ typable g root, p.graph.has n := fun n hn =>
    hs.grown.has (has_typable hg n hn)
  obtain ⟨hpainted, -, hgrown, -, hfits⟩ :=
    Palette.colored_of_forM ht.over hfaithful (has_typable hg) hrun
  obtain ⟨p', hrun'⟩ : ∃ p', ((typable g root).forM (Palette.color t)).run
      (Palette.ofGraph p.graph) = (.ok (), p') := by
    have hnodes : ∀ n ∈ typable g root, p.graph.has n ∧ (t.slot? n).isSome := fun n hn => by
      obtain ⟨hbelow, hkind⟩ := Graph.mem_reachable.1 hn
      exact ⟨hhas' n hn, ht.bound hbelow hkind⟩
    rcases Palette.verdict_of_forM hover' hs.kept hfaithful' hnodes with
      ⟨-, hok⟩ | ⟨⟨n, hn, hno⟩, -⟩
    · exact hok
    · exact absurd ((hcolorable n hn).imp_right fun hvoid =>
        (Palette.mayYieldNothing_eq hpainted hg.kept (has_typable hg n hn)).trans hvoid) hno
  obtain ⟨-, -, hgrown', hothers', hfits'⟩ :=
    Palette.colored_of_forM hover' hfaithful' hhas' hrun'
  have hstats : p'.stats = p.stats :=
    (Palette.stats_of_forM hover' hfaithful' hhas' hrun').trans
      (Palette.stats_of_forM ht.over hfaithful (has_typable hg) hrun).symm
  refine ⟨p'.graph, Graph.run_colorAll_eq_ok.2 ⟨p', hrun', hstats, rfl⟩, fun n hn hkind => ?_,
    fun n c hc hcls => ?_⟩
  · have hmem : n ∈ typable g root := Graph.mem_reachable.2 ⟨hn, hkind⟩
    obtain ⟨k, hk, hfit, -⟩ := hfits n hmem _ (ht.of?_eq hn hkind)
    obtain ⟨k', hk', hfit', -⟩ := hfits' n hmem _ (ht.of?_eq hn hkind)
    refine ⟨Palette.boundsText g t n, ?_, ?_⟩
    · rw [reading?, hk, Option.map_some, Palette.describeType_of_fits ht.over hgrown hfit]
    · rw [reading?, hk', Option.map_some,
        Palette.describeType_of_fits ht.over (hgrown.trans hgrown') hfit']
  · by_cases hmem : n ∈ typable g root
    · obtain ⟨hn, hkind⟩ := Graph.mem_reachable.1 hmem
      obtain ⟨k, hk, hfit, -⟩ := hfits n hmem _ (ht.of?_eq hn hkind)
      obtain ⟨k', hk', hfit', -⟩ := hfits' n hmem _ (ht.of?_eq hn hkind)
      obtain rfl := Option.some.inj (hc.symm.trans hk)
      rw [hk', eq_of_fits_class hfit hcls hfit']
    · -- other nodes are not colored
      have hhas : p.graph.has n := hs.kept.has_source ((Graph.child?_eq_some hs.kept).1 hc)
      exact (hothers' n hmem hhas).trans hc

/-! ## Runs -/

/-- An inference that ended well ends well again on the graph that it left, with the same report;
there all typable nodes of the program read as before, and what is colored with a class keeps it. -/
theorem run_again (hg : Resolved g root) {report : Report}
    (h : (run root ceiling allow).run g = (.ok report, g')) :
    ∃ g'', (run root ceiling allow).run g' = (.ok report, g'') ∧
      (∀ n, g'.Below root n → (g'.kind n).isTypable →
        ∃ text, reading? g' n = some text ∧ reading? g'' n = some text) ∧
      ∀ n c, g'.coloredType? n = some c → g'.kind c = .decl .classDecl →
        g''.coloredType? n = some c := by
  have hslots := resolved_withReturnSlots hg
  obtain ⟨seeds, stats, t, colors, hseeds, hsettled, hcolors, rfl⟩ := run_eq_ok.1 h
  have htidy := tidy_of_seeded hslots hseeds
  have ht := settled_of_ok hslots htidy hsettled
  have hs := colors_of_colorAll hslots ht.toTidy hcolors
  have hreads := hs.readsAs hslots
  have hvisits := hs.visits_eq hslots.rooted
  obtain ⟨g'', hcolors', hsame⟩ := colorAll_again hslots ht.toTidy hcolors
  have hsteps := withReturnSlots_of_colors hg hs
  refine ⟨g'', run_eq_ok.2 ⟨seeds, stats, t, colors, ?_, ?_, ?_, rfl⟩, fun n hn hkind => ?_,
    hsame.cls⟩
  · rw [hsteps, seeded_of_readsAs hreads hvisits hslots, hseeds]
  · rw [hsteps, settled_of_readsAs hreads hvisits hslots htidy, hsettled]
  · rw [hsteps, typable_of_readsAs hreads hvisits, hcolors']
  · have hbelow := (hreads.below n).1 hn
    rw [hreads.kind n hbelow] at hkind
    exact hsame.reading n hbelow hkind

/-- A class, and a list of one of its objects. -/
def shelfSource : Build Unit := do
  let _ ← Program.classDecl "Book"
  let _ ← Program.function "main"
  let book ← Program.call "Book" []
  let _ ← Program.varInit ⟨3⟩ "books" none (← Program.list [book])

/-- The program with its references tied. -/
def shelf : Graph := ((Reference.run Program.root 20).run (shelfSource.run Program.empty).2).2

/-- The container of the list makes the class a part of a type, so that the result is no tree any
more. Still a second inference reports the same and finds the same types. -/
theorem run_again_shelf : Resolved shelf Program.root ∧
    ∃ report g' g'', (run Program.root 20 false).run shelf = (.ok report, g') ∧
      g'.parents ⟨1⟩ = [Program.root, ⟨12⟩] ∧
      (run Program.root 20 false).run g' = (.ok report, g'') ∧
      reading? g'' ⟨5⟩ = some "list<Book>" ∧ g''.coloredType? ⟨4⟩ = some ⟨1⟩ := by
  have hg : Resolved shelf Program.root := by decide +kernel
  have hrun : ((run Program.root 20 false).run shelf).1.isOk ∧
      ((run Program.root 20 false).run shelf).2.parents ⟨1⟩ = [Program.root, ⟨12⟩] ∧
      ⟨5⟩ ∈ typable ((run Program.root 20 false).run shelf).2 Program.root ∧
      reading? ((run Program.root 20 false).run shelf).2 ⟨5⟩ = some "list<Book>" ∧
      ((run Program.root 20 false).run shelf).2.coloredType? ⟨4⟩ = some ⟨1⟩ ∧
      ((run Program.root 20 false).run shelf).2.kind ⟨1⟩ = .decl .classDecl := by
    decide +kernel
  rcases hshelf : (run Program.root 20 false).run shelf with ⟨fault | report, g'⟩
  · rw [hshelf] at hrun
    cases hrun.1
  · rw [hshelf] at hrun
    obtain ⟨-, hparents, hlist, htext, hcolor, hcls⟩ := hrun
    obtain ⟨hbelow, hkind⟩ := Graph.mem_reachable.1 hlist
    obtain ⟨g'', hagain, hreading, hclasses⟩ := run_again hg hshelf
    obtain ⟨text, hfirst, hsecond⟩ := hreading ⟨5⟩ hbelow hkind
    obtain rfl := Option.some.inj (htext.symm.trans hfirst)
    exact ⟨hg, report, g', g'', rfl, hparents, hagain, hsecond, hclasses ⟨4⟩ ⟨1⟩ hcolor hcls⟩

end Inference

end TypeFlow
