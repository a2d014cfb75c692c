import TypeFlow.Program
import TypeFlow.Proofs.Flow.Coverage
import TypeFlow.Proofs.Graph.Refill
import TypeFlow.Proofs.Inference.Ending
import TypeFlow.Reference
/-!
# The order of statements

Rules fire in the order in which nodes are found, so the order of statements decides in which order
bounds grow. What a rule asks for grows with the bounds as long as receivers are treated alike, and
then both runs come to rest in the same bounds. A run is `Steady` towards another one if no
receiver that it reads on its way is treated otherwise than where the other one comes to rest. Its
tables then stay under the last table of the other run (`under_of_steady`), and two runs that are
steady towards each other have one outcome (`outcome_of_steady`).

Without steadiness the outcome depends on the order: a rule that took a receiver for untyped showed
everything for its call, and that is not taken back when a class with the method turns up
(`order_matters`).
-/

namespace TypeFlow

open TypeSet Program

namespace Graph.Shuffles

variable {g h : Graph}

instance (g h : Graph) : Decidable (Shuffles g h) :=
  decidable_of_iff ((∀ i < h.size, KeptAt h ⟨i⟩) ∧ _)
    (by rw [← wellKept_iff]; exact shuffles_iff.symm)

/-- Shuffling can be undone. -/
theorem symm (hs : Shuffles g h) (hg : g.WellKept) : Shuffles h g where
  kept := hg
  size := hs.size.symm
  kind n := (hs.kind n).symm
  payload n := (hs.payload n).symm
  outgoing n hn := (hs.outgoing n (hs.kind n ▸ hn)).symm
  others n := (hs.others n).symm
  items n := (hs.items n).symm

end Graph.Shuffles

/-- A table without knowledge is under every table. -/
theorem BoundsTable.Bound.under {t : BoundsTable} (ht : t.Bound) (T : BoundsTable) : t.Under T := by
  refine ⟨fun n => ?_, fun n => ?_⟩
  · rw [(ht.blank_at n).1]
    exact (empty_sub _).within
  · rw [(ht.blank_at n).2]
    exact within_univ _

namespace Flow

instance (g : Graph) (t T : BoundsTable) (n : NodeId) : Decidable (Alike g t T n) :=
  inferInstanceAs (Decidable (∀ v w, treatment? g t n = some v → treatment? g T n = some w → v = w))

variable {g h : Graph} {root n m d : NodeId}

theorem home_eq (hs : Graph.Shuffles g h) (hg : g.WellKept) (n : NodeId) : home h n = home g n := by
  simp only [home, definition?, hs.kind, hs.child?_eq hg n (r := .ref) rfl]

end Flow

namespace Inference

variable {g h : Graph} {root n : NodeId} {t T seeds seeds' : BoundsTable} {allow : Bool}
  {ceiling : Nat} {stats stats' : Stats}

/-! ## Steadiness -/

/-- The tries of an inference, each with the table in which it is made. -/
def tries (g : Graph) (root : NodeId) (ceiling : Nat) (allow : Bool) :
    List (BoundsTable × Rule BoundsTable Update × NodeId) :=
  match seeded g root allow with
  | .error _ => []
  | .ok seeds =>
    Rule.fullCourse Flow.commit ((Flow.rules g (Flow.classMethods g root)).map FlowRule.toRule)
      (g.reachable root fun _ => true) ceiling seeds

/-- The table in which an inference comes to rest. -/
def rest? (g : Graph) (root : NodeId) (ceiling : Nat) (allow : Bool) : Option BoundsTable :=
  match seeded g root allow with
  | .error _ => none
  | .ok seeds => (settled g root ceiling seeds).toOption.map (·.2)

/-- On one program no receiver is treated otherwise than where the inference of the other program
comes to rest. -/
def Steady (g h : Graph) (root : NodeId) (ceiling : Nat) (allow : Bool) : Prop :=
  ∀ T ∈ rest? h root ceiling allow, ∀ c ∈ tries g root ceiling allow,
    ∀ m ∈ Flow.reads? g c.2.1.name c.2.2, Flow.Alike g c.1 T m

instance (g h : Graph) (root : NodeId) (ceiling : Nat) (allow : Bool) :
    Decidable (Steady g h root ceiling allow) :=
  inferInstanceAs (Decidable (∀ T ∈ rest? h root ceiling allow, ∀ c ∈ tries g root ceiling allow,
    ∀ m ∈ Flow.reads? g c.2.1.name c.2.2, Flow.Alike g c.1 T m))

/-! ## Tables of shuffled programs -/

section Shuffled

variable (hs : Graph.Shuffles g h)

include hs

theorem mem_typable_iff : n ∈ typable h root ↔ n ∈ typable g root := by
  simp only [typable, Graph.mem_reachable, hs.below_iff, hs.kind]

/-- Leaves over the classes of the one program are leaves over those of the other. -/
theorem classLeaf_of_shuffles (x : TypeSet) : ClassLeaf h root x → ClassLeaf g root x := by
  refine ClassesIn.mono (fun c hc => ?_) x
  exact ⟨(hs.below_iff root c).1 hc.1, (hs.kind c) ▸ hc.2⟩

variable (hg : Resolved g root)

include hg

/-- Nodes share bounds on both programs or on none. -/
theorem joins (ht : Tidy g root t) (hT : Tidy h root T) : t.Joins T := by
  have hdefined := Flow.defined_typable hg
  have hdefined' := Flow.defined_typable (hs.resolved hg)
  intro n m hbound hsame
  rw [ht.slot] at hbound hsame
  rw [ht.slot m] at hsame
  have hn := Flow.mem_of_isSome_slot?_bindAll hdefined hbound
  have hm := Flow.mem_of_isSome_slot?_bindAll hdefined (hsame ▸ hbound)
  have hn' := (mem_typable_iff hs).2 hn
  have hm' := (mem_typable_iff hs).2 hm
  have hhome := (Flow.slot?_bindAll_eq_iff hdefined hn hm).1 hsame
  rw [hT.slot, hT.slot m]
  refine ⟨Flow.isSome_slot?_bindAll hn', (Flow.slot?_bindAll_eq_iff hdefined' hn' hm').2 ?_⟩
  rw [Flow.home_eq hs hg.kept, Flow.home_eq hs hg.kept, hhome]

/-- The seeds of the one program are met wherever those of the other one are. -/
theorem seeds_under (hseeds : seeded g root allow = .ok seeds)
    (hseeds' : seeded h root allow = .ok seeds') (hT : Tidy h root T) (hup : seeds'.Under T) :
    seeds.Under T := by
  have htidy' := tidy_of_seeded (hs.resolved hg) hseeds'
  obtain ⟨requests, hr, rfl⟩ := seeded_eq_ok.1 hseeds
  obtain ⟨requests', hr', rfl⟩ := seeded_eq_ok.1 hseeds'
  have hblank := Flow.bound_bindAll g (typable g root)
  refine Update.under_result_of_met hblank.sound (canonical_seedRequests hr)
    (joins hs hg ⟨hblank.sound, hblank.over, fun _ => rfl⟩ hT) (fun q hq => ?_) (hblank.under T)
  have hmet := Update.met_result (Flow.bound_bindAll h (typable h root)).sound
    (canonical_seedRequests hr') q ((Flow.mem_seedRequests_iff hs hg hr hr').2 hq)
  exact hmet.mono hup fun n => by rw [hT.slot, htidy'.slot]

/-- Programs that can be seeded can be with their statements in another order. -/
theorem seeded_ne_error {fault : Fault} (hseeds : seeded g root allow = .ok seeds) :
    seeded h root allow ≠ .error fault := by
  intro hfault
  obtain ⟨requests, hr, -⟩ := seeded_eq_ok.1 hseeds
  exact Flow.seedRequests_fails hs hg hr (seeded_eq_error.1 hfault)

/-- A firing stays under a settled table of the shuffled program, if the receiver that its rule
reads is treated there as it is here: the same rule asks for nothing new there. -/
theorem under_of_fires (ht : Tidy g root t) (hT : Settled h root T) (hup : t.Under T)
    {r : FlowRule} (hr : r ∈ Flow.rules g (Flow.classMethods g root)) (hn : g.Below root n)
    (halike : ∀ m, Flow.reads? g r.name n = some m → Flow.Alike g t T m) {t' : BoundsTable}
    (hfires : Rule.Fires Flow.commit r.toRule n t t') : t'.Under T := by
  have hTleaves : T.Over (ClassLeaf g root) := hT.leaves.mono (classLeaf_of_shuffles hs)
  have hcanonical : ∀ requests, r.asks t n = .ok requests → ∀ q ∈ requests, q.Canonical :=
    fun requests hasks q hq => (ht.requestsOver hg hr hn hasks q hq).1
  obtain ⟨happlies, requests, hasks, -, rfl⟩ :=
    FlowRule.eq_result_of_fires ht.sound hcanonical hfires
  obtain ⟨r', hr', hagree⟩ := Flow.exists_agreeing (hs.readsAs hg) hg hr
  obtain ⟨requests', hasks', hquiet⟩ := hT.quiet r' hr' n ((hs.below_iff root n).2 hn)
    ((hagree.applies n hn).trans happlies)
  rw [hagree.asks n hn happlies T hTleaves] at hasks'
  have hmet : ∀ q ∈ requests', q.Met T := fun q hq =>
    Request.met_of_changes hT.sound
      (Flow.over_asks (leafFamily_classes hg) hTleaves (literalsOver hTleaves) hn hr hasks'
        q hq).1 (hquiet q hq)
  have hcovered := Flow.covered_asks ht.sound hT.sound hup hr happlies halike hasks hasks'
  exact Update.under_result_of_met ht.sound (hcanonical requests hasks)
    (joins hs hg ht hT.toTidy) (hcovered.met hmet) hup

/-- A run that is steady towards another one stays under the table in which that comes to rest. -/
theorem under_of_steady (hseeds : seeded g root allow = .ok seeds)
    (hseeds' : seeded h root allow = .ok seeds')
    (hsettled : settled g root ceiling seeds = .ok (stats, t))
    (hsettled' : settled h root ceiling seeds' = .ok (stats', T))
    (hsteady : Steady g h root ceiling allow) : t.Under T := by
  have hg' := hs.resolved hg
  have hT := settled_of_seeded hg' hseeds' hsettled'
  have hup : seeds.Under T := seeds_under hs hg hseeds hseeds' hT.toTidy
    (under_settled hg' (tidy_of_seeded hg' hseeds') hsettled')
  have hrest : rest? h root ceiling allow = some T := by
    simp [rest?, hseeds', hsettled', Except.toOption]
  refine (Rule.along_course (I := fun t => Tidy g root t ∧ t.Under T)
    (fun c hc htry hI t' hfires => ?_) (run_of_settled hsettled)
    ⟨tidy_of_seeded hg hseeds, hup⟩).2
  obtain ⟨hrule, hn⟩ := Rule.mem_tries.1 htry
  obtain ⟨r, hr, hc'⟩ := List.mem_map.1 hrule
  have hbelow := (Graph.mem_reachable.1 hn).1
  have halike : ∀ m, Flow.reads? g r.name c.2.2 = some m → Flow.Alike g c.1 T m := fun m hm =>
    hsteady T hrest c (by rwa [tries, hseeds]) m (hc' ▸ hm)
  rw [← hc'] at hfires
  exact ⟨hI.1.fires hg hr hbelow hfires,
    under_of_fires hs hg hI.1 hT hI.2 hr hbelow halike hfires⟩

end Shuffled

/-! ## Outcomes -/

section Shuffled

variable (hs : Graph.Shuffles g h) (hg : Resolved g root)

include hs hg

theorem mayYieldNothing_iff (hn : g.Below root n) :
    Palette.mayYieldNothing h n = Palette.mayYieldNothing g n := by
  simp only [Palette.mayYieldNothing, hs.kind, hs.parents_eq hg hn]

/-- A node is colorable in both tables or in none, and reads alike. -/
theorem alike_of_under (ht : Tidy g root t) (hT : Tidy h root T) (hup : t.Under T)
    (hdown : T.Under t) (hn : g.Below root n) :
    (Palette.Colorable h T n ↔ Palette.Colorable g t n) ∧
      Palette.boundsText h T n = Palette.boundsText g t n := by
  have hmono : ∀ {k : Graph} {t : BoundsTable}, t.Over (ClassLeaf k root) →
      t.Over (Palette.ClassLeaf k) := fun ht =>
    ht.mono fun x => ClassesIn.mono (fun c hc => hc.2) x
  have hover := hmono ht.leaves
  have hoverT := hmono (hT.leaves.mono (classLeaf_of_shuffles hs))
  have hsame := mayYieldNothing_iff hs hg hn
  refine ⟨⟨fun hc => ?_, fun hc => ?_⟩,
    Palette.boundsText_eq hover hoverT hup hdown (fun c _ => hs.name?_eq c) n⟩
  · exact Palette.colorable_of_under hoverT hover hdown hup id (hc.imp_right fun hv => hsame ▸ hv)
  · exact (Palette.colorable_of_under hover hoverT hup hdown id hc).imp_right fun hv => hsame ▸ hv

/-- Where runs that are steady towards each other come to rest, a node is colorable on both
programs or on none, and reads alike. -/
theorem alike_of_steady (hseeds : seeded g root allow = .ok seeds)
    (hseeds' : seeded h root allow = .ok seeds')
    (hsettled : settled g root ceiling seeds = .ok (stats, t))
    (hsettled' : settled h root ceiling seeds' = .ok (stats', T))
    (hsteady : Steady g h root ceiling allow) (hsteady' : Steady h g root ceiling allow)
    (hn : g.Below root n) : (Palette.Colorable h T n ↔ Palette.Colorable g t n) ∧
      Palette.boundsText h T n = Palette.boundsText g t n := by
  have hg' := hs.resolved hg
  have hup := under_of_steady hs hg hseeds hseeds' hsettled hsettled' hsteady
  have hdown := under_of_steady (hs.symm hg.kept) hg' hseeds' hseeds hsettled' hsettled hsteady'
  exact alike_of_under hs hg (settled_of_seeded hg hseeds hsettled).toTidy
    (settled_of_seeded hg' hseeds' hsettled').toTidy hup hdown hn

end Shuffled

/-- On a program and the same program with its statements in another order, two inferences that
do not go past their ceiling and are steady towards each other have the same outcome: both end
well and every typable node reads alike, or both stop at a node without a consistent type, or both
stop at a declared type that denotes no set. -/
theorem outcome_of_steady {g' h' : Graph} {outcome outcome' : Except Fault Report}
    (hs : Graph.Shuffles g h) (hg : Resolved g root)
    (hrun : (run root ceiling allow).run g = (outcome, g'))
    (hrun' : (run root ceiling allow).run h = (outcome', h'))
    (hdiverged : ∀ fault, outcome = .error fault → fault.isDiverged = false)
    (hdiverged' : ∀ fault, outcome' = .error fault → fault.isDiverged = false)
    (hsteady : Steady (withReturnSlots g root) (withReturnSlots h root) root ceiling allow)
    (hsteady' : Steady (withReturnSlots h root) (withReturnSlots g root) root ceiling allow) :
    (∃ report report', outcome = .ok report ∧ outcome' = .ok report' ∧
      ∀ n, (withReturnSlots g root).Below root n →
        ((withReturnSlots g root).kind n).isTypable →
          ∃ text, reading? g' n = some text ∧ reading? h' n = some text) ∨
    ∃ fault fault', outcome = .error fault ∧ outcome' = .error fault' ∧
      ((fault.isInconsistent ∧ fault'.isInconsistent) ∨
        (BadType (withReturnSlots g root) root fault ∧
          BadType (withReturnSlots h root) root fault')) := by
  have hslots := shuffles_withReturnSlots hs hg
  have hslotted := resolved_withReturnSlots hg
  have hends := ends_of_run hg hrun hdiverged
  have hends' := ends_of_run (hs.resolved hg) hrun' hdiverged'
  generalize withReturnSlots g root = G at *
  generalize withReturnSlots h root = H at *
  have hback := hslots.symm hslotted.kept
  have hslotted' := hslots.resolved hslotted
  cases hends with
  | badType hseeds hbad =>
    cases hends' with
    | badType hseeds' hbad' => exact Or.inr ⟨_, _, rfl, rfl, Or.inr ⟨hbad, hbad'⟩⟩
    | inconsistent hseeds' => exact absurd hseeds (seeded_ne_error hback hslotted' hseeds')
    | colored hseeds' => exact absurd hseeds (seeded_ne_error hback hslotted' hseeds')
  | inconsistent hseeds hsettled hfault hno =>
    cases hends' with
    | badType hseeds' => exact absurd hseeds' (seeded_ne_error hslots hslotted hseeds)
    | inconsistent _ _ hfault' => exact Or.inr ⟨_, _, rfl, rfl, Or.inl ⟨hfault, hfault'⟩⟩
    | colored hseeds' hsettled' hall =>
      obtain ⟨n, hn, hc⟩ := hno
      obtain ⟨hcolorable, -⟩ := alike_of_steady hslots hslotted hseeds hseeds' hsettled hsettled'
        hsteady hsteady' (Graph.mem_reachable.1 hn).1
      exact absurd (hcolorable.1 (hall n ((mem_typable_iff hslots).2 hn))) hc
  | colored hseeds hsettled hall hcolored =>
    cases hends' with
    | badType hseeds' => exact absurd hseeds' (seeded_ne_error hslots hslotted hseeds)
    | inconsistent hseeds' hsettled' _ hno =>
      obtain ⟨n, hn, hc⟩ := hno
      have hn := (mem_typable_iff hslots).1 hn
      obtain ⟨hcolorable, -⟩ := alike_of_steady hslots hslotted hseeds hseeds' hsettled hsettled'
        hsteady hsteady' (Graph.mem_reachable.1 hn).1
      exact absurd (hcolorable.2 (hall n hn)) hc
    | colored hseeds' hsettled' _ hcolored' =>
      have ht := (settled_of_seeded hslotted hseeds hsettled).toTidy
      have hT := (settled_of_seeded hslotted' hseeds' hsettled').toTidy
      refine Or.inl ⟨_, _, rfl, rfl, fun n hn hkind => ⟨_, hcolored.reading ht hn hkind, ?_⟩⟩
      rw [hcolored'.reading hT ((hslots.below_iff root n).2 hn) (by rwa [hslots.kind]),
        (alike_of_steady hslots hslotted hseeds hseeds' hsettled hsettled' hsteady hsteady' hn).2]

/-- A class with a method, an object of it, and a call of the method. -/
def objectSource : Build Unit := do
  let cls ← Program.classDecl "A"
  let _ ← Program.method cls "m"
  let one ← Program.int 1
  let _ ← Program.ret ⟨3⟩ (some one)
  let _ ← Program.function "main"
  let object ← Program.call "A" []
  let _ ← Program.varInit ⟨7⟩ "x" none object
  let x ← Program.ident "x"
  let call ← Program.methodCall x "m" []
  let _ ← Program.varInit ⟨7⟩ "y" none call

/-- The program with its references tied. -/
def object : Graph := ((Reference.run Program.root 20).run (objectSource.run Program.empty).2).2

/-- A variable that is used in front of its only assignment has the same type as behind it. -/
theorem outcome_of_steady_object :
    let h := object.withItems ⟨7⟩ [⟨13⟩, ⟨9⟩]
    Graph.Shuffles object h ∧ Resolved object Program.root ∧
    ((run Program.root 2 false).run object).1 = .ok ⟨⟨3, 2, 6⟩, 7, ⟨10, 0, 1⟩⟩ ∧
    ((run Program.root 2 false).run h).1 = .ok ⟨⟨3, 2, 6⟩, 7, ⟨10, 0, 1⟩⟩ ∧
    Steady (withReturnSlots object Program.root) (withReturnSlots h Program.root) Program.root 2
      false ∧
    Steady (withReturnSlots h Program.root) (withReturnSlots object Program.root) Program.root 2
      false ∧
    ∃ text, reading? ((run Program.root 2 false).run object).2 ⟨14⟩ = some text ∧
      reading? ((run Program.root 2 false).run h).2 ⟨14⟩ = some text := by
  intro h
  have hs : Graph.Shuffles object h := by decide +kernel
  have hg : Resolved object Program.root := by decide +kernel
  have hrun : ((run Program.root 2 false).run object).1 = .ok ⟨⟨3, 2, 6⟩, 7, ⟨10, 0, 1⟩⟩ := by
    decide +kernel
  have hrun' : ((run Program.root 2 false).run h).1 = .ok ⟨⟨3, 2, 6⟩, 7, ⟨10, 0, 1⟩⟩ := by
    decide +kernel
  have hsteady : Steady (withReturnSlots object Program.root) (withReturnSlots h Program.root)
      Program.root 2 false := by decide +kernel
  have hsteady' : Steady (withReturnSlots h Program.root) (withReturnSlots object Program.root)
      Program.root 2 false := by decide +kernel
  have htarget : (withReturnSlots object Program.root).Below Program.root ⟨14⟩ :=
    Graph.mem_visits_down.1 (by decide +kernel)
  refine ⟨hs, hg, hrun, hrun', hsteady, hsteady', ?_⟩
  rcases outcome_of_steady hs hg (Prod.fst_eq_iff.1 hrun) (Prod.fst_eq_iff.1 hrun') nofun nofun
    hsteady hsteady' with ⟨-, -, -, -, hall⟩ | ⟨_, _, herror, -⟩
  · exact hall ⟨14⟩ htarget (by decide +kernel)
  · cases herror

/-! ## Where the order matters -/

/-- Two classes, of which the second has a method; a variable that holds an object of the first
and then one of the second; and a call of the method on it. -/
def lateSource : Build Unit := do
  let _ ← Program.classDecl "A"
  let cls ← Program.classDecl "B"
  let _ ← Program.method cls "m"
  let one ← Program.int 1
  let _ ← Program.ret ⟨4⟩ (some one)
  let _ ← Program.function "main"
  let first ← Program.call "A" []
  let _ ← Program.varInit ⟨8⟩ "x" none first
  let second ← Program.call "B" []
  let _ ← Program.varInit ⟨8⟩ "z" none second
  let x ← Program.ident "x"
  let z ← Program.ident "z"
  let _ ← Program.assign ⟨8⟩ x z
  let x ← Program.ident "x"
  let call ← Program.methodCall x "m" []
  let _ ← Program.varInit ⟨8⟩ "y" none call

/-- The program with its references tied. -/
def late : Graph := ((Reference.run Program.root 20).run (lateSource.run Program.empty).2).2

/-- A parameter that is declared as a list of anything. -/
def nestedSource : Build Unit := do
  let element ← Program.dynamicType
  let list ← Program.genericType .list element
  let func ← Program.function "f"
  let _ ← Program.param func "xs" (some list)

/-- The program with its references tied. -/
def nested : Graph := ((Reference.run Program.root 20).run (nestedSource.run Program.empty).2).2

/-- If the second class is assigned to the variable in front of where its object is made, the call
is tried while the variable shows the first class alone, and its result is untyped for good. And an
inference that ends neither well nor without a consistent type stops at a declared type. -/
theorem order_matters :
    let h := late.withItems ⟨8⟩ [⟨10⟩, ⟨17⟩, ⟨13⟩, ⟨20⟩]
    Resolved late Program.root ∧ Graph.Shuffles late h ∧
    ((run Program.root 20 false).run late).1.isOk ∧
    ((run Program.root 20 false).run h).1.isOk ∧
    reading? ((run Program.root 20 false).run late).2 ⟨21⟩ = some "int" ∧
    reading? ((run Program.root 20 false).run h).2 ⟨21⟩ = some "dyn" ∧
    Resolved nested Program.root ∧
    ((run Program.root 20 false).run nested).1 =
      .error (.malformedSet (.argumentNotLeaf .univ)) := by
  decide +kernel

end Inference

end TypeFlow
