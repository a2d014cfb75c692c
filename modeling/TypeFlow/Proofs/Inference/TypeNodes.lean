import TypeFlow.Proofs.Coloring.Interned
import TypeFlow.Proofs.Coloring.ReadBack
import TypeFlow.Proofs.Inference.Again
import TypeFlow.Proofs.Inference.DeclaredTypes
import TypeFlow.Program
import TypeFlow.Reference
/-!
# The type nodes of a program

An inference that ends well gives every typable node of the program one type node, decided by what
is both shown of the node and permitted to it, reduced to one type (`reducedAt`). Nodes have the
same type node exactly if this is the same for both, the counts of the report are those of such
nodes, and a type node reads back as the type that it was made for (`TypedBy`).
-/

namespace TypeFlow

open TypeSet Program Palette

namespace Inference

variable {g g' : Graph} {root n m : NodeId} {t : BoundsTable} {allow : Bool} {ceiling : Nat}
  {colors : ColorStats} {report : Report}

/-- A graph whose typable nodes below a root have the type nodes that a table of bounds decides, and
the counts of them. -/
structure TypedBy (g : Graph) (root : NodeId) (t : BoundsTable) (colors : ColorStats) : Prop where
  total : ∀ n ∈ typable g root, ((g.outgoing n).countP fun e => e.role = .colored) = 1
  shared : ∀ n ∈ typable g root, ∀ m ∈ typable g root,
    g.coloredType? n = g.coloredType? m ↔ reducedAt t n = reducedAt t m
  counts : colors = ⟨(typable g root).length,
    (typable g root).countP fun n => reducedAt t n = .univ,
    (typable g root).countP fun n => reducedAt t n = .empty⟩
  classes : ∀ n ∈ typable g root, ∀ c, reducedAt t n = .cls c →
    g.kind c = .decl .classDecl ∧ g.coloredType? n = some c
  readBack : ∀ n ∈ typable g root, ClassFree (reducedAt t n) → ∃ k, g.coloredType? n = some k ∧
    g.annotationSet k = .ok (reducedAt t n) ∧ g.describeType k = (reducedAt t n).written

/-- A child is the only one in its role. -/
theorem countP_role_of_child? {r : Role} (hg : g.WellKept) (h : g.child? n r = some m) :
    ((g.outgoing n).countP fun e => e.role = r) = 1 := by
  have hmem := List.mem_map_of_mem (f := Edge.role) ((Graph.child?_eq_some hg).1 h)
  have hone := List.count_eq_one_of_mem (hg.unique n) hmem
  rw [List.count, List.countP_map] at hone
  convert hone using 2
  funext e
  rw [Bool.eq_iff_iff]
  simp

/-- Every typable node has the type node of what its bounds reduce to. -/
theorem exists_typeNode (hg : Resolved g root) (ht : Tidy g root t) {p : Palette}
    (hrun : ((typable g root).forM (color t)).run (.ofGraph g) = (.ok (), p))
    (hn : n ∈ typable g root) : ∃ k, p.graph.coloredType? n = some k ∧
      p.Recalls (reducedAt t n) k ∧
      ((reducedAt t n = .empty ∧ p.graph.kind k = .type .void) ∨
        (reducedAt t n = .univ ∨ Proper (reducedAt t n)) ∧ p.graph.Shows k (reducedAt t n)) := by
  obtain ⟨-, -, -, -, hcolored⟩ :=
    colored_of_forM ht.over (faithful_ofGraph hg.kept) (has_typable hg) hrun
  have hinterned := interned_of_forM ht.sound (Interned.ofGraph g) hrun
  have hbounds := ht.of?_eq (Graph.mem_reachable.1 hn).1 (Graph.mem_reachable.1 hn).2
  obtain ⟨k, hk, hfits, hrecalls⟩ := hcolored n hn _ hbounds
  refine ⟨k, hk, hinterned.recalls hrecalls, ?_⟩
  rcases hfits with ⟨he, hvoid⟩ | ⟨he, hshows⟩
  · exact Or.inl ⟨(reducedAt_eq_empty ht.sound n).2 he, hvoid⟩
  · exact Or.inr ⟨(reduced_spec (canonical_inter (ht.sound.canonical_shown n)
      (ht.sound.canonical_permitted n)) he).imp_right And.left, hshows⟩

/-- A program that is colored from a table is typed by it. -/
theorem typedBy_of_colorAll (hg : Resolved g root) (ht : Tidy g root t)
    (h : (Graph.colorAll t (typable g root)).run g = (.ok colors, g')) :
    TypedBy g' root t colors := by
  have hs := colors_of_colorAll hg ht h
  have hreads := hs.readsAs hg
  have htypable := typable_of_readsAs hreads (hs.visits_eq hg.rooted)
  obtain ⟨p, hrun, hstats, rfl⟩ := Graph.run_colorAll_eq_ok.1 h
  have hnode := fun n => exists_typeNode (n := n) hg ht hrun
  refine ⟨?_, ?_, ?_, ?_, ?_⟩ <;> rw [htypable]
  · intro n hn
    obtain ⟨k, hk, -⟩ := hnode n hn
    exact countP_role_of_child? hs.kept hk
  · intro n hn m hm
    obtain ⟨k, hk, hrecalls, hreads⟩ := hnode n hn
    obtain ⟨l, hl, hrecalls', hreads'⟩ := hnode m hm
    rw [hk, hl]
    constructor
    · intro hkl
      obtain rfl := Option.some.inj hkl
      rcases hreads with ⟨he, hvoid⟩ | ⟨-, hshows⟩ <;>
        rcases hreads' with ⟨he', hvoid'⟩ | ⟨-, hshows'⟩
      · rw [he, he']
      · exact absurd hvoid (hshows'.denotes.kind_ne_void)
      · exact absurd hvoid' (hshows.denotes.kind_ne_void)
      · exact hshows.denotes.functional hshows'.denotes
    · intro hsame
      rw [hrecalls.unique (hsame ▸ hrecalls')]
  · have htally := stats_of_forM ht.over (faithful_ofGraph hg.kept) (has_typable hg) hrun
    have hbounds : ∀ n ∈ typable g root, t.of? n = some ⟨t.shown n, t.permitted n⟩ := fun n hn =>
      ht.of?_eq (Graph.mem_reachable.1 hn).1 (Graph.mem_reachable.1 hn).2
    rw [foldl_tally ht.sound hbounds] at htally
    rw [← hstats, htally]
    simp [ofGraph]
  · intro n hn c hc
    obtain ⟨k, hk, -, ⟨he, -⟩ | ⟨-, hshows⟩⟩ := hnode n hn
    · rw [hc] at he
      cases he
    · rw [hc] at hshows
      cases hshows.denotes with
      | cls hkind => exact ⟨hkind, hk⟩
  · intro n hn hfree
    obtain ⟨k, hk, -, ⟨he, hvoid⟩ | ⟨hproper, hshows⟩⟩ := hnode n hn
    · exact ⟨k, hk, he ▸ Graph.annotationSet_void hvoid, he ▸ Graph.describeType_void hvoid⟩
    · exact ⟨k, hk, Graph.annotationSet_eq hshows hproper hfree,
        Graph.describeType_eq_written hshows hproper hfree⟩

/-- An inference on a resolved program that ends well comes to rest in a table that types the graph
it leaves. -/
theorem typed_by_bounds (hg : Resolved g root)
    (h : (run root ceiling allow).run g = (.ok report, g')) :
    ∃ seeds stats t, seeded (withReturnSlots g root) root allow = .ok seeds ∧
      settled (withReturnSlots g root) root ceiling seeds = .ok (stats, t) ∧
        TypedBy g' root t report.colors := by
  have hslots := resolved_withReturnSlots hg
  obtain ⟨seeds, stats, t, colors, hseeds, hsettled, hcolors, rfl⟩ := run_eq_ok.1 h
  have ht := settled_of_seeded hslots hseeds hsettled
  exact ⟨seeds, stats, t, hseeds, hsettled, typedBy_of_colorAll hslots ht.toTidy hcolors⟩

/-- An object, an empty list, and a list of a variable that is first a number and then a string. -/
def mixedListsSource : Build Unit := do
  let _ ← Program.classDecl "Book"
  let _ ← Program.function "main"
  let _ ← Program.varInit ⟨3⟩ "x" none (← Program.int 1)
  let _ ← Program.varInit ⟨3⟩ "xs" none (← Program.list [← Program.ident "x"])
  let x ← Program.ident "x"
  let _ ← Program.assign ⟨3⟩ x (← Program.ident "y")
  let _ ← Program.varInit ⟨3⟩ "y" none (← Program.string "s")
  let _ ← Program.varInit ⟨3⟩ "none" none (← Program.list [])
  let _ ← Program.varInit ⟨3⟩ "b" none (← Program.call "Book" [])

/-- The program with its references tied. -/
def mixedLists : Graph :=
  ((Reference.run Program.root 20).run (mixedListsSource.run Program.empty).2).2

/-- The union that is shown of one list reduces to what is shown of the other, so that both have one
type node, which denotes a list of anything. -/
theorem typed_by_bounds_mixed : Resolved mixedLists Program.root ∧ ∃ report g' seeds stats t k,
    (run Program.root 20 true).run mixedLists = (.ok report, g') ∧
    seeded (withReturnSlots mixedLists Program.root) Program.root true = .ok seeds ∧
    settled (withReturnSlots mixedLists Program.root) Program.root 20 seeds = .ok (stats, t) ∧
    TypedBy g' Program.root t report.colors ∧ report.colors = ⟨19, 4, 1⟩ ∧
    t.shown ⟨8⟩ = .anyOf [.base .list, .arged .list (.base .int)] ∧
    t.shown ⟨17⟩ = .base .list ∧
    g'.coloredType? ⟨8⟩ = some k ∧ g'.coloredType? ⟨17⟩ = some k ∧
    g'.annotationSet k = .ok (.base .list) ∧ g'.describeType k = "list" := by
  have hg : Resolved mixedLists Program.root := by decide +kernel
  have hok : ((run Program.root 20 true).run mixedLists).1.map Report.colors =
        .ok ⟨19, 4, 1⟩ ∧
      ⟨8⟩ ∈ typable ((run Program.root 20 true).run mixedLists).2 Program.root ∧
      ⟨17⟩ ∈ typable ((run Program.root 20 true).run mixedLists).2 Program.root := by
    decide +kernel
  have hbounds : (do
      let seeds ← seeded (withReturnSlots mixedLists Program.root) Program.root true
      let final ← settled (withReturnSlots mixedLists Program.root) Program.root 20 seeds
      return ((final.2.shown ⟨8⟩, reducedAt final.2 ⟨8⟩),
        final.2.shown ⟨17⟩, reducedAt final.2 ⟨17⟩)) = Except.ok
          ((.anyOf [.base .list, .arged .list (.base .int)], .base .list),
            .base .list, .base .list) := by
    decide +kernel
  rcases hrun : (run Program.root 20 true).run mixedLists with ⟨fault | report, g'⟩
  · rw [hrun] at hok
    cases hok.1
  · rw [hrun] at hok
    obtain ⟨hcolors, hunion, hlist⟩ := hok
    obtain ⟨seeds, stats, t, hseeds, hsettled, htyped⟩ := typed_by_bounds hg hrun
    rw [hseeds, Run.ok_bind, hsettled, Run.ok_bind] at hbounds
    obtain ⟨hfirst, hsecond⟩ := Prod.mk.inj (Run.pure_eq_ok.1 hbounds)
    obtain ⟨hshown, hreduced⟩ := Prod.mk.inj hfirst
    obtain ⟨hshown', hreduced'⟩ := Prod.mk.inj hsecond
    obtain ⟨k, hk, hset, htext⟩ := htyped.readBack _ hunion (hreduced ▸ trivial)
    rw [hreduced] at hset htext
    have hsame := (htyped.shared _ hunion _ hlist).2 (hreduced.trans hreduced'.symm)
    exact ⟨hg, report, g', seeds, stats, t, k, rfl, hseeds, hsettled, htyped,
      Except.ok.inj hcolors, hshown, hshown', hk, hsame ▸ hk, hset, htext⟩

end Inference

end TypeFlow
