import TypeFlow.Program
import TypeFlow.Proofs.Inference.Ending
import TypeFlow.Reference
/-!
# Declared types

A declaration enters an inference as a seed: it narrows what its node is permitted, in a slot that
the references to the node share. Bounds only climb, so that in the end the node and its references
permit no more than was declared (`permitted_within_declared`), and the color of each refines the
declared type (`declared_respected`).
-/

namespace TypeFlow

open TypeSet Program

namespace Inference

variable {g g' : Graph} {root n m d type : NodeId} {t : BoundsTable} {allow : Bool}
  {ceiling : Nat} {report : Report} {requests : List Request} {a : TypeSet}

/-! ## Declarations -/

/-- Declarations of types: for parameters and fields, for what functions return, and for the targets
of first assignments. -/
inductive Declares (g : Graph) (root : NodeId) : NodeId → NodeId → Prop
  | definition {n type : NodeId} (hn : g.Below root n)
      (hkind : g.kind n = .decl .param ∨ g.kind n = .decl .field)
      (htype : g.child? n .declaredType = some type) : Declares g root n type
  | result {f n type : NodeId} (hf : g.Below root f) (hslot : g.child? f .returnSlot = some n)
      (htype : g.child? f .returnType = some type) : Declares g root n type
  | target {v n type : NodeId} (hv : g.Below root v) (hkind : g.kind v = .stmt .varInit)
      (htarget : g.child? v .target = some n) (hident : g.kind n = .expr .ident)
      (htype : g.child? v .declaredType = some type) : Declares g root n type

/-- Nodes that a declaration is about: the node that it stands at, the variable that this node
refers to, and everything that refers to one of them. -/
inductive HasDeclared (g : Graph) (root : NodeId) : NodeId → NodeId → Prop
  | declared {n type : NodeId} (h : Declares g root n type) : HasDeclared g root n type
  | referred {n d type : NodeId} (h : Declares g root n type)
      (hkind : g.kind n = .expr .ident) (href : g.child? n .ref = some d)
      (hd : isVariable (g.kind d)) : HasDeclared g root d type
  | reference {n d type : NodeId} (hn : g.Below root n)
      (hkind : g.kind n = .expr .ident ∨ g.kind n = .expr .fieldGet)
      (href : g.child? n .ref = some d) (h : HasDeclared g root d type) : HasDeclared g root n type

theorem isTypable_of_isVariable {k : NodeKind} (h : isVariable k) : k.isTypable := by
  unfold isVariable at h
  split at h <;> first | rfl | cases h

/-- What is declared are typable nodes of the program, of few kinds. -/
structure Declarable (g : Graph) (root n : NodeId) : Prop where
  below : g.Below root n
  typable : (g.kind n).isTypable
  /-- Of these only return slots may yield nothing. -/
  void : Palette.mayYieldNothing g n → g.kind n = .decl .returnSlot

theorem Declarable.of_kind (hn : g.Below root n)
    (hkind : isVariable (g.kind n) ∨ g.kind n = .decl .returnSlot ∨ g.kind n = .expr .ident ∨
      g.kind n = .expr .fieldGet) : Declarable g root n := by
  refine ⟨hn, ?_, ?_⟩
  · rcases hkind with h | h | h | h
    · exact isTypable_of_isVariable h
    all_goals rw [h]; rfl
  · intro hvoid
    rcases hkind with h | h | h | h
    · unfold isVariable at h
      split at h <;> simp_all [Palette.mayYieldNothing]
    · exact h
    all_goals simp [Palette.mayYieldNothing, h] at hvoid

theorem Declares.declarable (hg : Resolved g root) (h : Declares g root n type) :
    Declarable g root n := by
  cases h with
  | definition hn hkind htype =>
    exact .of_kind hn (Or.inl (by rcases hkind with h | h <;> rw [h] <;> rfl))
  | @result f _ _ hf hslot htype =>
    have hkind := isFunction_of_fits (hg.fits_child hf htype rfl)
    have hfits := hg.fits_child hf hslot rfl
    rw [hkind] at hfits
    exact .of_kind (hg.below_child hf hslot rfl) (Or.inr (Or.inl (fits_returnSlot.1 hfits)))
  | target hv hkind htarget hident htype =>
    exact .of_kind (hg.below_child hv htarget rfl) (Or.inr (Or.inr (Or.inl hident)))

theorem HasDeclared.declarable (hg : Resolved g root) (h : HasDeclared g root n type) :
    Declarable g root n := by
  cases h with
  | declared h => exact h.declarable hg
  | referred h hkind href hd =>
    exact .of_kind (hg.tied _ (h.declarable hg).below _ href).1 (Or.inl hd)
  | reference hn hkind href h =>
    exact .of_kind hn (Or.inr (Or.inr hkind))

/-! ## Seeds of declarations -/

/-- If seeding succeeds, every declared type denotes a set and is asked for. -/
theorem mem_seedRequests_of_declares (hg : Resolved g root)
    (hr : Flow.seedRequests g root allow (typable g root) = .ok requests)
    (h : Declares g root n type) :
    ∃ a, g.annotationSet type = .ok a ∧ .narrow n a ∈ requests := by
  have hnode : ∀ {f : TypeSet → List Request}, g.Below root n → (g.kind n).isTypable →
      Flow.seedNode g (Flow.directlyCalled g root) allow n =
        (do return f (← g.annotationSet type)) → (∀ a, .narrow n a ∈ f a) →
      ∃ a, g.annotationSet type = .ok a ∧ .narrow n a ∈ requests := by
    intro f hn hkind hseed hf
    obtain ⟨qs, hqs⟩ := Flow.succeeds_seedNode hr hn hkind
    obtain ⟨a, ha, hqs'⟩ := Run.bind_eq_ok.1 (hseed.symm.trans hqs)
    obtain rfl := Run.pure_eq_ok.1 hqs'
    exact ⟨a, ha, (Flow.mem_seedRequests hr).2 (Or.inl ⟨n, hn, hkind, _, hqs, hf a⟩)⟩
  have hdeclarable := h.declarable hg
  cases h with
  | definition hn hkind htype =>
    rcases hkind with hk | hk
    · exact hnode (f := fun a => [.widen n a, .narrow n a]) hn hdeclarable.typable
        (by simp only [Flow.seedNode, hk, htype]) (by simp)
    · exact hnode (f := fun a => [.narrow n a]) hn hdeclarable.typable
        (by simp only [Flow.seedNode, hk, htype]) (by simp)
  | @result f _ _ hf hslot htype =>
    have hkind := isFunction_of_fits (hg.fits_child hf htype rfl)
    have hfits := hg.fits_child hf hslot rfl
    rw [hkind] at hfits
    exact hnode (f := fun a => [.narrow n a]) hdeclarable.below hdeclarable.typable
      (by simp only [Flow.seedNode, fits_returnSlot.1 hfits,
        Flow.declaredReturn?_eq hg hf hslot htype]) (by simp)
  | @target v _ _ hv hkind htarget hident htype =>
    obtain ⟨qs, hqs⟩ := Flow.succeeds_seedInit hr hv hkind
    have hseed := hqs
    simp only [Flow.seedInit, htarget, htype] at hseed
    obtain ⟨a, ha, hseed⟩ := Run.bind_eq_ok.1 hseed
    obtain rfl := Run.pure_eq_ok.1 hseed
    exact ⟨a, ha, (Flow.mem_seedRequests hr).2 (Or.inr ⟨v, hv, hkind, _, hqs, by simp⟩)⟩

/-! ## Bounds of declared nodes -/

/-- A reference has the bounds of its definition. -/
theorem Tidy.of?_reference (hg : Resolved g root) (ht : Tidy g root t) (hn : g.Below root n)
    (hkind : g.kind n = .expr .ident ∨ g.kind n = .expr .fieldGet)
    (href : g.child? n .ref = some d) (hd : (g.kind d).isTypable) : t.of? n = t.of? d := by
  have hdefined := Flow.defined_typable hg
  have hntypable : n ∈ typable g root :=
    Graph.mem_reachable.2 ⟨hn, by rcases hkind with h | h <;> rw [h] <;> rfl⟩
  have hdef : Flow.definition? g n = some d := by
    rw [Flow.definition?, if_pos hkind, href, Option.filter_some, if_pos (by simpa using hd)]
  obtain ⟨hdtypable, hnone⟩ := hdefined n hntypable d hdef
  have hslot : t.slot? n = t.slot? d := by
    rw [ht.slot, ht.slot, Flow.slot?_bindAll_eq_iff hdefined hntypable hdtypable]
    simp [Flow.home, hdef, hnone]
  rw [t.of?_eq, t.of?_eq, hslot]

theorem Tidy.permitted_reference (hg : Resolved g root) (ht : Tidy g root t) (hn : g.Below root n)
    (hkind : g.kind n = .expr .ident ∨ g.kind n = .expr .fieldGet)
    (href : g.child? n .ref = some d) (hd : (g.kind d).isTypable) :
    t.permitted n = t.permitted d := by
  rw [BoundsTable.permitted, BoundsTable.permitted, ht.of?_reference hg hn hkind href hd]

/-- Where the rules come to rest, all that seeding asks for is met. -/
theorem met_of_seedRequests (hg : Resolved g root) {stats : Stats} {seeds : BoundsTable}
    (hseeds : seeded g root allow = .ok seeds)
    (hsettled : settled g root ceiling seeds = .ok (stats, t))
    (hr : Flow.seedRequests g root allow (typable g root) = .ok requests) :
    ∀ q ∈ requests, q.Met t := by
  intro q hq
  have htidy := tidy_of_seeded hg hseeds
  obtain ⟨requests', hr', rfl⟩ := seeded_eq_ok.1 hseeds
  obtain rfl := Except.ok.inj (hr.symm.trans hr')
  have hmet := Update.met_result (Flow.bound_bindAll g (typable g root)).sound
    (canonical_seedRequests hr) q hq
  exact hmet.mono (under_settled hg htidy hsettled) fun n =>
    ((settled_of_ok hg htidy hsettled).slot n).trans (htidy.slot n).symm

/-- Where the rules come to rest, declared nodes and the references to them permit no more than was
declared. -/
theorem permitted_within_declared (hg : Resolved g root) {seeds : BoundsTable} {stats : Stats}
    (hseeds : seeded g root allow = .ok seeds)
    (hsettled : settled g root ceiling seeds = .ok (stats, t)) (h : HasDeclared g root n type) :
    ∃ a, g.annotationSet type = .ok a ∧ (t.permitted n).Within a := by
  have ht := settled_of_seeded hg hseeds hsettled
  have hdeclared : ∀ {n type : NodeId}, Declares g root n type →
      ∃ a, g.annotationSet type = .ok a ∧ (t.permitted n).Within a := by
    intro n type h
    obtain ⟨requests, hr, -⟩ := seeded_eq_ok.1 hseeds
    obtain ⟨a, ha, hq⟩ := mem_seedRequests_of_declares hg hr h
    exact ⟨a, ha, met_of_seedRequests hg hseeds hsettled hr _ hq
      (ht.bound (h.declarable hg).below (h.declarable hg).typable)⟩
  induction h with
  | declared h => exact hdeclared h
  | referred h hkind href hd =>
    obtain ⟨a, ha, hwithin⟩ := hdeclared h
    refine ⟨a, ha, ?_⟩
    rwa [← ht.permitted_reference hg (h.declarable hg).below (Or.inl hkind) href
      (isTypable_of_isVariable hd)]
  | reference hn hkind href h ih =>
    obtain ⟨a, ha, hwithin⟩ := ih
    refine ⟨a, ha, ?_⟩
    rwa [ht.permitted_reference hg hn hkind href (h.declarable hg).typable]

/-! ## Colors of declared nodes -/

/-- What an annotation denotes: everything if it is dynamic, else nothing or a leaf. -/
theorem annotationSet_cases (h : g.annotationSet type = .ok a) :
    g.kind type = .type .dynamic ∨ a = .empty ∨ Proper a := by
  rw [Graph.annotationSet, Graph.annotationOver] at h
  split at h
  · obtain rfl := Except.ok.inj h
    exact Or.inr (Or.inr trivial)
  · obtain ⟨m, -, h⟩ := Run.bind_eq_ok.1 h
    obtain ⟨b, -, h⟩ := Run.bind_eq_ok.1 h
    obtain ⟨m', -, h⟩ := Run.bind_eq_ok.1 h
    obtain ⟨x, -, h⟩ := Run.bind_eq_ok.1 h
    exact Or.inr (Or.inr (proper_of_argedSet h).2)
  · obtain ⟨m, -, h⟩ := Run.bind_eq_ok.1 h
    obtain rfl := Run.pure_eq_ok.1 h
    exact Or.inr (Or.inr trivial)
  · next hkind => exact Or.inl hkind
  · obtain rfl := Except.ok.inj h
    exact Or.inr (Or.inl rfl)
  · cases h

/-- If an inference ends well, the color of everything that has a declared type refines that type,
or the type is dynamic; only return slots may be void instead. -/
theorem declared_respected (hg : Resolved g root)
    (hrun : (run root ceiling allow).run g = (.ok report, g'))
    (h : HasDeclared (withReturnSlots g root) root n type) :
    ∃ k, g'.coloredType? n = some k ∧
      ((g'.kind k = .type .void ∧ (withReturnSlots g root).kind n = .decl .returnSlot) ∨
        (g'.kind k ≠ .type .void ∧ ((withReturnSlots g root).kind type = .type .dynamic ∨
          ∃ x y, g'.Denotes k x ∧ (withReturnSlots g root).annotationSet type = .ok y ∧
            Refines x y))) := by
  have hslots := resolved_withReturnSlots hg
  cases ends_of_run hg hrun nofun with
  | @colored _ _ seeds t stats hseeds hsettled hall hcolored =>
    have ht := settled_of_seeded hslots hseeds hsettled
    have hdeclarable := h.declarable hslots
    obtain ⟨a, ha, hwithin⟩ := permitted_within_declared hslots hseeds hsettled h
    obtain ⟨k, hk, hfits⟩ := hcolored.color n hdeclarable.below hdeclarable.typable
    have hs := ht.sound.canonical_shown n
    have hp := ht.sound.canonical_permitted n
    have hvalid : ((t.shown n).inter (t.permitted n)).Within a :=
      (inter_within_right hs hp).trans hwithin
    refine ⟨k, hk, ?_⟩
    rcases hfits with ⟨he, hvoid⟩ | ⟨he, hshows⟩
    · refine Or.inl ⟨hvoid, hdeclarable.void ?_⟩
      exact (hall n (Graph.mem_reachable.2 ⟨hdeclarable.below, hdeclarable.typable⟩)).resolve_left
        fun hne => hne he
    · refine Or.inr ⟨hshows.denotes.kind_ne_void, ?_⟩
      rcases annotationSet_cases ha with hdynamic | rfl | hproper
      · exact Or.inl hdynamic
      · exact absurd (within_empty (canonical_inter hs hp) hvalid) he
      · rcases reduced_mono (canonical_inter hs hp) hproper.canonical he hvalid with hu | hr
        · rw [hproper.reduced] at hu
          exact absurd hu hproper.ne_univ
        · rw [hproper.reduced] at hr
          exact Or.inr ⟨_, a, hshows.denotes, ha, hr⟩

/-- A function that returns its parameter, which is declared as a number. -/
def declaringSource : Build Unit := do
  let f ← Program.function "same"
  let int ← Program.baseType .int
  let _ ← Program.param f "n" (some int)
  let n ← Program.ident "n"
  let _ ← Program.ret ⟨2⟩ (some n)

/-- The program with its references tied. -/
def declaring : Graph :=
  ((Reference.run Program.root 20).run (declaringSource.run Program.empty).2).2

/-- The color of the returned identifier refines the declared type of the parameter. -/
theorem declared_respected_declaring : Resolved declaring Program.root ∧
    ((run Program.root 20 false).run declaring).1 = .ok ⟨⟨2, 1, 1⟩, 2, ⟨3, 0, 0⟩⟩ ∧
    HasDeclared (withReturnSlots declaring Program.root) Program.root ⟨5⟩ ⟨3⟩ ∧
    ∃ k, ((run Program.root 20 false).run declaring).2.coloredType? ⟨5⟩ = some k ∧
      ((((run Program.root 20 false).run declaring).2.kind k = .type .void ∧
          (withReturnSlots declaring Program.root).kind ⟨5⟩ = .decl .returnSlot) ∨
        (((run Program.root 20 false).run declaring).2.kind k ≠ .type .void ∧
          ((withReturnSlots declaring Program.root).kind ⟨3⟩ = .type .dynamic ∨
            ∃ x y, ((run Program.root 20 false).run declaring).2.Denotes k x ∧
              (withReturnSlots declaring Program.root).annotationSet ⟨3⟩ = .ok y ∧
                Refines x y))) := by
  have hresolved : Resolved declaring Program.root := by decide +kernel
  have hrun : ((run Program.root 20 false).run declaring).1 = .ok ⟨⟨2, 1, 1⟩, 2, ⟨3, 0, 0⟩⟩ := by
    decide +kernel
  have hbelow : ∀ n ∈ [⟨4⟩, ⟨5⟩], (withReturnSlots declaring Program.root).Below Program.root n :=
    fun n hn => Graph.mem_visits_down.1 (by revert n; decide +kernel)
  have hdeclared : HasDeclared (withReturnSlots declaring Program.root) Program.root ⟨5⟩ ⟨3⟩ :=
    .reference (hbelow ⟨5⟩ (by simp)) (Or.inl (by decide +kernel)) (by decide +kernel)
      (.declared (.definition (hbelow ⟨4⟩ (by simp)) (Or.inl (by decide +kernel))
        (by decide +kernel)))
  exact ⟨hresolved, hrun, hdeclared,
    declared_respected hresolved (Prod.fst_eq_iff.1 hrun) hdeclared⟩

end Inference

end TypeFlow
