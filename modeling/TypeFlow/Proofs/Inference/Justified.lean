import TypeFlow.Program
import TypeFlow.Proofs.Flow.Computed
import TypeFlow.Proofs.Inference.Ending
import TypeFlow.Reference
/-!
# Types that the final table justifies

What is shown of a node only grows, so that what was found from smaller operands stays. Where types
are computed it does no harm: at any time the node shows no more than its rule contributes on the
table at hand (`Justified`), as every firing preserves (`Justified.fires`). So where the
rules come to rest it shows exactly that (`computed_types_justified`).

The exception is a node that values are assigned to, which shows these as well
(`assigned_sum_mixes`).
-/

namespace TypeFlow

open TypeSet Program

namespace Inference

open TypeFlow.Flow

variable {g : Graph} {root n : NodeId} {t t' seeds : BoundsTable} {allow : Bool} {ceiling : Nat}
  {stats : Stats} {r : FlowRule}

/-- A node shows no more than its rule contributes on the table at hand. -/
def Justified (r : FlowRule) (n : NodeId) (t : BoundsTable) : Prop :=
  ∀ a, r.Contributes t n a → (t.shown n).Within a

section Node

variable (hg : Resolved g root) (hn : g.Below root n)
  (hrule : computedBy? g (g.kind n) = some r) (hplace : ¬IsPlace g root n)

include hg hn hrule

/-- A node whose types are computed shares its bounds with references to it only, of which a
resolved program has none. -/
theorem eq_of_slot? (ht : Tidy g root t) {m : NodeId} (hm : (t.slot? m).isSome)
    (hslot : t.slot? m = t.slot? n) : m = n := by
  obtain ⟨-, -, -, hget, hident, hdecl⟩ := kind_of_computedBy? hrule
  have hdefined := defined_typable hg
  have hntypable : n ∈ typable g root :=
    Graph.mem_reachable.2 ⟨hn, isTypable_of_computedBy? hrule⟩
  rw [ht.slot] at hm hslot
  rw [ht.slot] at hslot
  have hmtypable := mem_of_isSome_slot?_bindAll hdefined hm
  have hhome := (slot?_bindAll_eq_iff hdefined hmtypable hntypable).1 hslot
  have hnhome : home g n = n := by
    rw [home, definition?, if_neg (not_or.2 ⟨hident, hget⟩), Option.getD_none]
  rw [hnhome] at hhome
  cases hdef : definition? g m with
  | none => simpa [home, hdef] using hhome
  | some d =>
    -- the definition of a reference is a declaration
    obtain rfl : d = n := by simpa [home, hdef] using hhome
    unfold definition? at hdef
    split at hdef
    · next hkind =>
      obtain ⟨hchild, -⟩ := Option.filter_eq_some_iff.1 hdef
      obtain ⟨-, hrefers⟩ := hg.tied m (Graph.mem_reachable.1 hmtypable).1 d hchild
      rcases hkind with hk | hk
      · rw [hk] at hrefers
        simp only [refersTo, isVariable] at hrefers
        split at hrefers <;> simp_all
      · rw [hk] at hrefers
        exact absurd (by simpa [refersTo] using hrefers) (hdecl .field)
    · cases hdef

include hplace

/-- What firings preserve: a node shows no more than its rule contributes. -/
theorem Justified.fires (hdeclared : Declared g root) (ht : Tidy g root t)
    (h : Justified r n t) {methods : List NodeId} {r' : FlowRule} (hr' : r' ∈ rules g methods)
    {m : NodeId} (hm : g.Below root m) (hfires : Rule.Fires Flow.commit r'.toRule m t t') :
    Justified r n t' := by
  intro b hb
  have ht' := ht.fires hg hr' hm hfires
  have hunder := ht.climbs hg hr' hm hfires
  have hcontributes : ∀ {a}, r.Contributes t n a → a.Within b := fun ha =>
    ha.within hrule ht.sound ht'.sound hunder hb
  obtain ⟨hr, happlies⟩ : r ∈ rules g methods ∧ r.applies n := mem_rules_of_computedBy? hrule
  obtain ⟨own, hown⟩ := succeeds_asks hg hn hdeclared ht.sound ht.leaves hr happlies
  obtain ⟨a, ha⟩ := exists_contributes hrule hown
  have hcanonical : ∀ requests, r'.asks t m = .ok requests → ∀ q ∈ requests, q.Canonical :=
    fun requests hasks q hq => (ht.requestsOver hg hr' hm hasks q hq).1
  obtain ⟨happlies', requests, hasks, -, rfl⟩ :=
    FlowRule.eq_result_of_fires ht.sound hcanonical hfires
  refine Update.shown_result_within ht.sound (hcanonical requests hasks)
    ((h a ha).trans (hcontributes ha)) fun p types hq hp hslot => ?_
  obtain rfl := eq_of_slot? hg hn hrule ht hp hslot
  obtain ⟨rfl, rfl⟩ := eq_of_widens hg hm hrule hplace hr' happlies' hasks hq
  obtain ⟨c, hc⟩ := exists_contributes hrule hasks
  cases hc with
  | nothing hnone =>
    obtain rfl := Except.ok.inj (hasks.symm.trans hnone)
    cases hq
  | types hone =>
    obtain rfl := Except.ok.inj (hasks.symm.trans hone)
    obtain ⟨-, rfl⟩ := Request.widen.inj (List.mem_singleton.1 hq)
    exact hcontributes (.types hone)

omit hplace in
/-- Nothing is shown of such a node before the rules run. -/
theorem justified_of_seeded (hseeds : seeded g root allow = .ok seeds) : Justified r n seeds := by
  intro b _
  obtain ⟨-, -, -, -, hident, hdecl⟩ := kind_of_computedBy? hrule
  have htidy := tidy_of_seeded hg hseeds
  obtain ⟨requests, hr, rfl⟩ := seeded_eq_ok.1 hseeds
  have hbound := bound_bindAll g (typable g root)
  have hempty : ((bindAll g (typable g root)).shown n).Within .empty := by
    rw [(hbound.blank_at n).1]
    exact .refl _
  refine (Update.shown_result_within hbound.sound (canonical_seedRequests hr) hempty
    fun p types hq hp hslot => ?_).trans (empty_within b)
  obtain rfl := eq_of_slot? hg hn hrule htidy (by simpa using hp) (by simpa using hslot)
  -- seeds show something of parameters and of identifiers alone
  rcases (mem_seedRequests hr).1 hq with ⟨m, -, -, qs, hqs, hq⟩ | ⟨m, -, -, qs, hqs, hq⟩
  · rcases kind_of_widen_seedNode hqs hq with hk | hk
    · exact absurd hk (hdecl .param)
    · exact absurd hk hident
  · exact absurd hq (not_widen_seedInit hqs)

end Node

/-- On a resolved program, wherever the rules come to rest: what is shown of an operator, of a
collection or of an element of one, unless values are assigned to it, is what its rule contributes
on the table at rest, as each of the two refines the other. -/
theorem computed_types_justified (hg : Resolved g root)
    (hseeds : seeded (withReturnSlots g root) root allow = .ok seeds)
    (hsettled : settled (withReturnSlots g root) root ceiling seeds = .ok (stats, t))
    (hn : (withReturnSlots g root).Below root n)
    (hrule : computedBy? (withReturnSlots g root) ((withReturnSlots g root).kind n) = some r)
    (hplace : ¬IsPlace (withReturnSlots g root) root n) :
    ∃ a, r.Contributes t n a ∧ (t.shown n).Within a ∧ a.Within (t.shown n) := by
  have hslots := resolved_withReturnSlots hg
  have htidy := tidy_of_seeded hslots hseeds
  have ht := settled_of_ok hslots htidy hsettled
  have hdeclared := declared_of_seeded hg hseeds
  have hjustified : Justified r n t := by
    refine (Rule.invariant_of_fixpoint
      (I := fun t => Tidy (withReturnSlots g root) root t ∧ Justified r n t)
      (fun rule hmem m hm s s' hs hfires => ?_)
      ⟨htidy, justified_of_seeded hslots hn hrule hseeds⟩ (run_of_settled hsettled)).2
    obtain ⟨r', hr', rfl⟩ := List.mem_map.1 hmem
    have hbelow := (Graph.mem_reachable.1 hm).1
    exact ⟨hs.1.fires hslots hr' hbelow hfires,
      hs.2.fires hslots hn hrule hplace hdeclared hs.1 hr' hbelow hfires⟩
  obtain ⟨hr, happlies⟩ := mem_rules_of_computedBy? hrule
  obtain ⟨requests, hasks, hquiet⟩ := ht.quiet r hr n hn happlies
  obtain ⟨a, ha⟩ := exists_contributes hrule hasks
  refine ⟨a, ha, hjustified a ha, ?_⟩
  cases ha with
  | nothing => exact empty_within _
  | types hone =>
    obtain rfl := Except.ok.inj (hasks.symm.trans hone)
    exact (ht.sub_of_widen (ht.requestsOver hslots hr hn hasks _ List.mem_cons_self).1
      (ht.bound hn (isTypable_of_computedBy? hrule)) hquiet List.mem_cons_self).within

/-- A list of a variable that is found to be a string after it was found to be a number. -/
def lateStringSource : Build Unit := do
  let _ ← Program.function "main"
  let _ ← Program.varInit ⟨2⟩ "x" none (← Program.int 1)
  let _ ← Program.varInit ⟨2⟩ "l" none (← Program.list [← Program.ident "x"])
  let x ← Program.ident "x"
  let _ ← Program.assign ⟨2⟩ x (← Program.ident "v")
  let _ ← Program.varInit ⟨2⟩ "v" none (← Program.string "s")

/-- The program with its references tied. -/
def lateString : Graph :=
  ((Reference.run Program.root 20).run (lateStringSource.run Program.empty).2).2

/-- The list is first shown as one of numbers, which the list of anything that its rule finds in
the end has room for. -/
theorem computed_types_justified_late : Resolved lateString Program.root ∧ ∃ seeds stats t,
    seeded (withReturnSlots lateString Program.root) Program.root true = .ok seeds ∧
    settled (withReturnSlots lateString Program.root) Program.root 20 seeds = .ok (stats, t) ∧
    (withReturnSlots lateString Program.root).Below Program.root ⟨7⟩ ∧
    ¬IsPlace (withReturnSlots lateString Program.root) Program.root ⟨7⟩ ∧
    t.shown ⟨7⟩ = .anyOf [.base .list, .arged .list (.base .int)] ∧
    (collectionRule (withReturnSlots lateString Program.root)).Contributes t ⟨7⟩ (.base .list) ∧
    (t.shown ⟨7⟩).Within (.base .list) ∧ (TypeSet.base .list).Within (t.shown ⟨7⟩) := by
  have hg : Resolved lateString Program.root := by decide +kernel
  have hend : (do
      let seeds ← seeded (withReturnSlots lateString Program.root) Program.root true
      let final ← settled (withReturnSlots lateString Program.root) Program.root 20 seeds
      let asked ← (collectionRule (withReturnSlots lateString Program.root)).asks final.2 ⟨7⟩
      return (final.2.shown ⟨7⟩, asked)) = Except.ok
        (.anyOf [.base .list, .arged .list (.base .int)], [.widen ⟨7⟩ (.base .list)]) := by
    decide +kernel
  obtain ⟨seeds, hseeds, hend⟩ := Run.bind_eq_ok.1 hend
  obtain ⟨⟨stats, t⟩, hsettled, hend⟩ := Run.bind_eq_ok.1 hend
  obtain ⟨asked, hasks, hend⟩ := Run.bind_eq_ok.1 hend
  obtain ⟨hshown, rfl⟩ := Prod.mk.inj (Run.pure_eq_ok.1 hend)
  have hn : (withReturnSlots lateString Program.root).Below Program.root ⟨7⟩ :=
    Graph.mem_visits_down.1 (by decide +kernel)
  have hkind : (withReturnSlots lateString Program.root).kind ⟨7⟩ = .expr .listLit := by
    decide +kernel
  have hplace : ¬IsPlace (withReturnSlots lateString Program.root) Program.root ⟨7⟩ := by
    decide +kernel
  obtain ⟨a, ha, hwithin⟩ := computed_types_justified hg hseeds hsettled hn
    (by rw [hkind, computedBy?]) hplace
  have hlist := FlowRule.Contributes.types hasks
  rw [ha.unique hlist] at hwithin
  exact ⟨hg, seeds, stats, t, hseeds, hsettled, hn, hplace, hshown, hlist, hwithin⟩

/-! ## A sum that a string is assigned to -/

/-- An assignment to a sum. -/
def assignedSumSource : Build Unit := do
  let _ ← Program.function "main"
  let sum ← Program.binary .add (← Program.int 1) (← Program.int 2)
  let _ ← Program.assign ⟨2⟩ sum (← Program.string "s")

/-- The program, which has no references. -/
def assignedSum : Graph := (assignedSumSource.run Program.empty).2

/-- What is assigned to a sum is shown of it as well, though its operands do not yield it. -/
theorem assigned_sum_mixes : Resolved assignedSum Program.root ∧ ∃ seeds stats t,
    seeded (withReturnSlots assignedSum Program.root) Program.root true = .ok seeds ∧
    settled (withReturnSlots assignedSum Program.root) Program.root 20 seeds = .ok (stats, t) ∧
    (withReturnSlots assignedSum Program.root).Below Program.root ⟨5⟩ ∧
    (withReturnSlots assignedSum Program.root).kind ⟨5⟩ = .expr (.binary .add) ∧
    (binaryRule (withReturnSlots assignedSum Program.root)).Contributes t ⟨5⟩ (.base .int) ∧
    t.shown ⟨5⟩ = .anyOf [.base .int, .base .string] ∧ ¬(t.shown ⟨5⟩).Within (.base .int) := by
  have hend : (do
      let seeds ← seeded (withReturnSlots assignedSum Program.root) Program.root true
      let final ← settled (withReturnSlots assignedSum Program.root) Program.root 20 seeds
      let asked ← (binaryRule (withReturnSlots assignedSum Program.root)).asks final.2 ⟨5⟩
      return (final.2.shown ⟨5⟩, asked)) =
        Except.ok (.anyOf [.base .int, .base .string], [.widen ⟨5⟩ (.base .int)]) := by
    decide +kernel
  obtain ⟨seeds, hseeds, hend⟩ := Run.bind_eq_ok.1 hend
  obtain ⟨⟨stats, t⟩, hsettled, hend⟩ := Run.bind_eq_ok.1 hend
  obtain ⟨asked, hasks, hend⟩ := Run.bind_eq_ok.1 hend
  obtain ⟨hshown, rfl⟩ := Prod.mk.inj (Run.pure_eq_ok.1 hend)
  refine ⟨by decide +kernel, seeds, stats, t, hseeds, hsettled,
    Graph.mem_visits_down.1 (by decide +kernel), by decide +kernel, .types hasks, hshown, ?_⟩
  rw [hshown]
  decide

end Inference

end TypeFlow
