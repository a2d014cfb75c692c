import TypeFlow.Program
import TypeFlow.Proofs.Annotation
import TypeFlow.Proofs.Inference.Ending
import TypeFlow.Proofs.TypeSet.Meaning
import TypeFlow.Reference
/-!
# Canonical tables

Every table of an inference on a resolved program holds canonical sets only (`tidy_of_hasTable`):
the seeded one does, and what a try of a rule does to a table in order leaves it in order
(`Tidy.tryAt`). Sets that are not well formed come from declared types alone, so that an inference
stops at a malformed set only where a declared type denotes none (`badType_of_malformed`).
-/

namespace TypeFlow

open Program

/-! ## Tries on their course -/

namespace Rule

variable {σ π : Type} {commit : Commit σ π} {rules : List (Rule σ π)} {nodes : List NodeId}

/-- What every try preserves holds wherever a try is made. -/
theorem course_invariant {I : σ → Prop} : ∀ {ps : List (Rule σ π × NodeId)} {s : σ},
    (∀ p ∈ ps, ∀ s, I s → I ((p.1.tryAt commit p.2).run s).2) → I s →
      ∀ c ∈ course commit ps s, I c.1 ∧ c.2 ∈ ps
  | [], _, _, _ => nofun
  | p :: ps, s, hI, hs => by
    obtain ⟨hp, hps⟩ := List.forall_mem_cons.1 hI
    rw [course]
    refine List.forall_mem_cons.2 ⟨⟨hs, List.mem_cons_self⟩, fun c hc => ?_⟩
    obtain ⟨hc, hmem⟩ := course_invariant hps (hp s hs) c hc
    exact ⟨hc, List.mem_cons_of_mem p hmem⟩

end Rule

/-! ## Return slots in a larger graph -/

namespace Graph

variable {g : Graph} {root f s : NodeId} {r : Role}

/-- Hanging a new node into a graph lets it grow. -/
theorem extends_hang {k : NodeKind} {p : Payload} (hs : g.has s) (hnone : g.child? s r = none)
    (hr : r.isStructural) : Extends (· ≠ r) g (g.hang s r k p) where
  size := by rw [size_hang]; omega
  kind n hn := by rw [kind_hang, if_neg (ne_fresh hn)]
  payload n hn := by rw [payload_hang, if_neg (ne_fresh hn)]
  child n q _ hq := by rw [child?_hang hs hnone, if_neg fun h => hq h.2]
  parents n hn _ _ := by rw [parents_hang hr, if_neg (ne_fresh hn)]

theorem extends_withSlot (hf : g.has f) : Extends (· ≠ .returnSlot) g (g.withSlot f) := by
  rcases hc : g.child? f .returnSlot with _ | s
  · rw [withSlot_of_child? hc]
    exact extends_hang hf hc rfl
  · rw [withSlot_of_hasChild (by simp [hasChild, hc])]
    exact .refl _ g

end Graph

namespace Inference

variable {g g' : Graph} {root n : NodeId} {t seeds : BoundsTable} {allow : Bool} {ceiling : Nat}

/-- Return slots let a program grow. -/
theorem extends_withReturnSlots (hg : Resolved g root) :
    Graph.Extends (· ≠ .returnSlot) g (withReturnSlots g root) := by
  have hfold : ∀ {fs : List NodeId} {h : Graph}, Graph.Extends (· ≠ .returnSlot) g h →
      (∀ f ∈ fs, g.has f) → Graph.Extends (· ≠ .returnSlot) g (fs.foldl Graph.withSlot h) := by
    intro fs
    induction fs with
    | nil => exact fun h _ => h
    | cons f fs ih =>
      intro h hgh hfs
      obtain ⟨hf, hfs⟩ := List.forall_mem_cons.1 hfs
      exact ih (hgh.trans (Graph.extends_withSlot (hgh.has hf))) hfs
  rw [Graph.withReturnSlots_eq]
  exact hfold (.refl _ g) fun f hf => hg.has_below (Graph.mem_reachable.1 hf).1

/-- A declared type denotes the same set before and after the functions get their slots. -/
theorem badType_of_withReturnSlots (hg : Resolved g root) {fault : Fault}
    (h : BadType (withReturnSlots g root) root fault) : BadType g root fault := by
  obtain ⟨n, type, hn, htype, hbad⟩ := h
  obtain ⟨hslotted, -⟩ := slotted_withReturnSlots hg
  have hdeclared : g.child? n .declaredType = some type ∨ g.child? n .returnType = some type := by
    rwa [← hslotted.child n .declaredType nofun, ← hslotted.child n .returnType nofun]
  have hbelow : g.Below root n := by
    refine (hslotted.new n hn).resolve_right fun hslot => ?_
    -- a return slot has no declared type of its own
    rcases htype with htype | htype
    · have hfits := hslotted.resolved.fits_child hn htype rfl
      rw [hslot] at hfits
      cases hfits
    · have hfunction := isFunction_of_fits (hslotted.resolved.fits_child hn htype rfl)
      rw [hslot] at hfunction
      cases hfunction
  have htypeBelow : g.Below root type :=
    hdeclared.elim (hbelow.of_child? · rfl) (hbelow.of_child? · rfl)
  refine ⟨n, type, hbelow, hdeclared, ?_⟩
  rwa [← (extends_withReturnSlots hg).annotationSet_eq nofun nofun nofun hg.rooted htypeBelow]

/-! ## Tables of a run -/

/-- What a try of a flow rule does to a table in order leaves it in order. -/
theorem Tidy.tryAt (hg : Resolved g root) (ht : Tidy g root t) {methods : List NodeId}
    {r : FlowRule} (hr : r ∈ Flow.rules g methods) (hn : g.Below root n) :
    Tidy g root ((r.toRule.tryAt Flow.commit n).run t).2 := by
  rcases hrun : (r.toRule.tryAt Flow.commit n).run t with ⟨fault | fired, t'⟩
  · -- the commit of what it asks for does not fail
    rcases Rule.run_tryAt_eq_error.1 hrun with ⟨-, rfl⟩ | ⟨u, hfire, hcommit⟩
    · exact ht
    · obtain ⟨-, requests, hasks, -, rfl⟩ := FlowRule.fire?_eq_some hfire
      rw [FlowRule.run_commit ht.sound (Update.fits_ofRequests ht.sound fun q hq =>
        (ht.requestsOver hg hr hn hasks q hq).1)] at hcommit
      cases (Run.outcome_eq.1 hcommit).1
  · rcases Rule.run_tryAt_eq_ok.1 hrun with ⟨-, -, rfl⟩ | ⟨-, hfires⟩
    · exact ht
    · exact ht.fires hg hr hn hfires

/-- The tables of an inference with a ceiling: the seeded one, and those that the commits of firing
rules lead to on the course of its rounds. -/
inductive HasTable (g : Graph) (root : NodeId) (ceiling : Nat) (allow : Bool) : BoundsTable → Prop
  | seeded {seeds : BoundsTable} (hseeds : seeded g root allow = .ok seeds) :
      HasTable g root ceiling allow seeds
  | committed {seeds t : BoundsTable} {c : BoundsTable × Rule BoundsTable Update × NodeId}
      (hseeds : Inference.seeded g root allow = .ok seeds)
      (hc : c ∈ Rule.fullCourse Flow.commit
        ((Flow.rules g (Flow.classMethods g root)).map FlowRule.toRule)
        (g.reachable root fun _ => true) ceiling seeds)
      (hfires : Rule.Fires Flow.commit c.2.1 c.2.2 c.1 t) : HasTable g root ceiling allow t

/-- The tables of an inference are in order. -/
theorem tidy_of_hasTable (hg : Resolved g root) (h : HasTable g root ceiling allow t) :
    Tidy g root t := by
  cases h with
  | seeded hseeds => exact tidy_of_seeded hg hseeds
  | committed hseeds hc hfires =>
    have htries : ∀ p ∈ Rule.tries ((Flow.rules g (Flow.classMethods g root)).map FlowRule.toRule)
        (g.reachable root fun _ => true), ∃ r ∈ Flow.rules g (Flow.classMethods g root),
          r.toRule = p.1 ∧ g.Below root p.2 := fun p hp => by
      obtain ⟨hr, hn⟩ := Rule.mem_tries.1 hp
      obtain ⟨r, hr, hrule⟩ := List.mem_map.1 hr
      exact ⟨r, hr, hrule, (Graph.mem_reachable.1 hn).1⟩
    obtain ⟨hbefore, hmem⟩ := Rule.course_invariant (I := Tidy g root)
      (fun p hp s hs => by
        obtain ⟨r, hr, hrule, hn⟩ := htries p (Rule.mem_rounds hp)
        exact hrule ▸ hs.tryAt hg hr hn)
      (tidy_of_seeded hg hseeds) _ hc
    obtain ⟨r, hr, hrule, hn⟩ := htries _ (Rule.mem_rounds hmem)
    rw [← hrule] at hfires
    exact hbefore.fires hg hr hn hfires

/-- The table in which the rules come to rest is one of them. -/
theorem hasTable_of_settled {stats : Stats} (hseeds : seeded g root allow = .ok seeds)
    (h : settled g root ceiling seeds = .ok (stats, t)) : HasTable g root ceiling allow t :=
  Rule.along_course (I := HasTable g root ceiling allow)
    (fun _ hc _ _ _ hfires => .committed hseeds hc hfires) (run_of_settled h) (.seeded hseeds)

/-! ## Malformed sets -/

/-- An inference stops at a malformed set only where a declared type denotes none. -/
theorem badType_of_malformed (hg : Resolved g root) {cause : TypeSet.Malformed}
    (h : ((run root ceiling allow).run g).1 = .error (.malformedSet cause)) :
    BadType g root (.malformedSet cause) := by
  rcases hrun : (run root ceiling allow).run g with ⟨outcome, g'⟩
  obtain rfl : outcome = .error (.malformedSet cause) := by rwa [hrun] at h
  have hends := ends_of_run hg hrun fun fault hfault => by
    obtain rfl := Except.error.inj hfault
    rfl
  cases hends with
  | badType hseeds hbad => exact badType_of_withReturnSlots hg hbad
  | inconsistent _ _ hfault => cases hfault

/-- On a resolved program all bounds of an inference stay canonical: in the seeded table and in the
table behind every commit they pass the check, and their unions have two operands at least, in
strictly ascending order. So it stops at a malformed set only where a declared type does, and not at
all if every declared type of the program denotes a set. -/
theorem bounds_stay_canonical (hg : Resolved g root) (ceiling : Nat) (allow : Bool) :
    (∀ t, HasTable (withReturnSlots g root) root ceiling allow t →
      ∀ s, ∀ a ∈ [(t.get s).shown, (t.get s).permitted],
        a.check = .ok () ∧ ∀ ops, a = .anyOf ops → 2 ≤ ops.length ∧ TypeSet.Ascending ops) ∧
    (∀ cause, ((run root ceiling allow).run g).1 = .error (.malformedSet cause) →
      BadType g root (.malformedSet cause)) ∧
    ((∀ n type, g.Below root n →
        (g.child? n .declaredType = some type ∨ g.child? n .returnType = some type) →
          ∃ a, g.annotationSet type = .ok a) →
      ∀ cause, ((run root ceiling allow).run g).1 ≠ .error (.malformedSet cause)) := by
  refine ⟨fun t ht s a ha => ?_, fun cause h => badType_of_malformed hg h, fun hall cause h => ?_⟩
  · have hcanonical := (tidy_of_hasTable (resolved_withReturnSlots hg) ht).sound.canonical s
    rw [← TypeSet.canonical_iff]
    simp only [List.mem_cons, List.not_mem_nil, or_false] at ha
    rcases ha with rfl | rfl
    · exact hcanonical.1
    · exact hcanonical.2
  · obtain ⟨n, type, hn, htype, hbad⟩ := badType_of_malformed hg h
    obtain ⟨a, ha⟩ := hall n type hn htype
    rw [ha] at hbad
    cases hbad

/-- A variable that is first a number and then a string. -/
def mixingSource : Build Unit := do
  let _ ← Program.function "main"
  let _ ← Program.varInit ⟨2⟩ "x" none (← Program.int 1)
  let _ ← Program.assign ⟨2⟩ (← Program.ident "x") (← Program.string "s")

/-- The program with its references tied. -/
def mixing : Graph := ((Reference.run Program.root 20).run (mixingSource.run Program.empty).2).2

/-- A function with a parameter that is declared to be a list of anything. -/
def misdeclaringSource : Build Unit := do
  let anything ← Program.genericType .list (← Program.dynamicType)
  let f ← Program.function "first"
  let _ ← Program.param f "xs" (some anything)

/-- The program, which has no references. -/
def misdeclaring : Graph := (misdeclaringSource.run Program.empty).2

/-- What the variable of the first program is shown to hold is a union in order, and the second
program stops at its declared type. -/
theorem bounds_stay_canonical_mixing : Resolved mixing Program.root ∧
    (∃ t, HasTable (withReturnSlots mixing Program.root) Program.root 20 true t ∧
      (t.get ⟨3⟩).shown = .anyOf [.base .int, .base .string] ∧
      (t.get ⟨3⟩).shown.check = .ok ()) ∧
    Resolved misdeclaring Program.root ∧
    ((run Program.root 20 true).run misdeclaring).1 =
      .error (.malformedSet (.argumentNotLeaf .univ)) ∧
    BadType misdeclaring Program.root (.malformedSet (.argumentNotLeaf .univ)) := by
  have hmixing : Resolved mixing Program.root := by decide +kernel
  have hmisdeclaring : Resolved misdeclaring Program.root := by decide +kernel
  have hrun : ((run Program.root 20 true).run misdeclaring).1 =
      .error (.malformedSet (.argumentNotLeaf .univ)) := by decide +kernel
  have hshows : (do
      let seeds ← seeded (withReturnSlots mixing Program.root) Program.root true
      let final ← settled (withReturnSlots mixing Program.root) Program.root 20 seeds
      return (final.2.get ⟨3⟩).shown) = Except.ok (.anyOf [.base .int, .base .string]) := by
    decide +kernel
  obtain ⟨seeds, hseeds, hshows⟩ := Run.bind_eq_ok.1 hshows
  obtain ⟨⟨stats, t⟩, hsettled, hshown⟩ := Run.bind_eq_ok.1 hshows
  have htable := hasTable_of_settled hseeds hsettled
  refine ⟨hmixing, ⟨t, htable, Except.ok.inj hshown, ?_⟩, hmisdeclaring, hrun,
    (bounds_stay_canonical hmisdeclaring 20 true).2.1 _ hrun⟩
  exact ((bounds_stay_canonical hmixing 20 true).1 t htable ⟨3⟩ _ List.mem_cons_self).1

end Inference

end TypeFlow
