import TypeFlow.Program
import TypeFlow.Proofs.Inference.Canonical
import TypeFlow.Proofs.Inference.DeclaredTypes
import TypeFlow.Proofs.Inference.FieldWrites
import TypeFlow.Proofs.Program.Annotation
import TypeFlow.Reference
/-!
# Parameters that nobody feeds

On request, an undeclared parameter is taken to yield everything if no known call reaches its
function. What counts as one is read off the names alone, before any receiver is known: a method is
taken for called where a method of its name is called on anything. Without such a call, or if the
function is also used as a value, the parameter and all that refers to it show everything, so that
no inference stops there for want of an argument (`uncalled_shows_all`). But a method that no
receiver dispatches to may still have the name of one that is called, and its parameter is then
left with nothing (`unfed_shows_nothing`).
-/

namespace TypeFlow

open TypeSet Program

variable {g g' : Graph} {root n p f : NodeId} {t : BoundsTable} {ceiling : Nat} {allow : Bool}

namespace Program

/-- A call of a function, or a call on any receiver of a method with its name. -/
inductive NamedByCall (g : Graph) (root f : NodeId) : Prop
  | call {n : NodeId} (hn : g.Below root n) (hkind : g.kind n = .expr .call)
      (href : g.child? n .ref = some f)
  | method {n c : NodeId} {name : String} (hn : g.Below root n)
      (hkind : g.kind n = .expr .methodCall) (hname : g.name? n = some name)
      (hf : g.name? f = some name) (hc : c ∈ g.parents f) (hcls : g.kind c = .decl .classDecl)

/-- Whether a call names a function, decided on the nodes of the program. -/
theorem namedByCall_iff : NamedByCall g root f ↔ ∃ n ∈ g.reachable root fun _ => true,
    (g.kind n = .expr .call ∧ g.child? n .ref = some f) ∨
      (g.kind n = .expr .methodCall ∧ (∃ c ∈ g.parents f, g.kind c = .decl .classDecl) ∧
        (g.name? n).isSome ∧ g.name? n = g.name? f) := by
  simp only [Graph.mem_reachable, and_true]
  constructor
  · intro h
    cases h with
    | call hn hkind href => exact ⟨_, hn, Or.inl ⟨hkind, href⟩⟩
    | method hn hkind hname hf hc hcls =>
      exact ⟨_, hn, Or.inr ⟨hkind, ⟨_, hc, hcls⟩, by rw [hname]; rfl, hname.trans hf.symm⟩⟩
  · rintro ⟨n, hn, ⟨hkind, href⟩ | ⟨hkind, ⟨c, hc, hcls⟩, hsome, hsame⟩⟩
    · exact .call hn hkind href
    · obtain ⟨name, hname⟩ := Option.isSome_iff_exists.1 hsome
      exact .method hn hkind hname (hsame.symm.trans hname) hc hcls

instance (g : Graph) (root f : NodeId) : Decidable (NamedByCall g root f) :=
  decidable_of_iff _ namedByCall_iff.symm

/-- An identifier that stands for a function. -/
def UsedAsValue (g : Graph) (root f : NodeId) : Prop :=
  ∃ n, g.Below root n ∧ g.kind n = .expr .ident ∧ g.child? n .ref = some f

/-- A function that no call names, or that is used as a value besides. -/
def Uncalled (g : Graph) (root f : NodeId) : Prop :=
  ¬NamedByCall g root f ∨ UsedAsValue g root f

/-- A parameter without a declared type of a function that is not called. -/
structure Unfed (g : Graph) (root p : NodeId) : Prop where
  below : g.Below root p
  kind : g.kind p = .decl .param
  undeclared : g.child? p .declaredType = none
  uncalled : ∃ f ∈ g.parents p, Uncalled g root f

/-- A definition or a reference to it. -/
def StandsFor (g : Graph) (root d n : NodeId) : Prop :=
  n = d ∨ g.Below root n ∧ g.kind n = .expr .ident ∧ g.child? n .ref = some d

end Program

namespace Flow

theorem mem_nodesOf {kind : ExprKind} :
    n ∈ nodesOf g root kind ↔ g.Below root n ∧ g.kind n = .expr kind := by
  simp [nodesOf, Graph.mem_reachable]

/-- Functions that are taken for called are named by a call, and not used as values. -/
theorem not_uncalled_of_mem (h : f ∈ directlyCalled g root) : ¬Uncalled g root f := by
  rw [directlyCalled, List.mem_filter, List.mem_append] at h
  obtain ⟨hcalled, hescaping⟩ := h
  rintro (hnamed | ⟨n, hn, hkind, href⟩)
  · refine hnamed ?_
    rcases hcalled with hcall | hmethod
    · obtain ⟨n, hn, href⟩ := List.mem_filterMap.1 hcall
      obtain ⟨hn, hkind⟩ := mem_nodesOf.1 hn
      exact .call hn hkind href
    · obtain ⟨hf, hnames⟩ := List.mem_filter.1 hmethod
      obtain ⟨-, hf⟩ := Graph.mem_reachable.1 hf
      simp only [Bool.and_eq_true, List.any_eq_true, decide_eq_true_eq] at hf
      obtain ⟨-, c, hc, hcls⟩ := hf
      obtain ⟨name, hname, hcalled⟩ := (Option.any_eq_true _ _).1 hnames
      obtain ⟨n, hn, hcall⟩ := List.mem_filterMap.1 (of_decide_eq_true hcalled)
      obtain ⟨hn, hkind⟩ := mem_nodesOf.1 hn
      exact .method hn hkind hcall hname hc hcls
  · exact of_decide_eq_true hescaping (List.mem_filterMap.2 ⟨n, mem_nodesOf.2 ⟨hn, hkind⟩, href⟩)

end Flow

namespace Inference

/-! ## Under return slots -/

/-- Return slots call no function. -/
theorem namedByCall_of_withReturnSlots (hg : Resolved g root) (hf : g.has f)
    (hkind : (g.kind f).category ≠ .type ∧ g.kind f ≠ .decl .classDecl)
    (h : NamedByCall (withReturnSlots g root) root f) : NamedByCall g root f := by
  obtain ⟨hslotted, -⟩ := slotted_withReturnSlots hg
  have hextends := extends_withReturnSlots hg
  have hold : ∀ {n : NodeId} {k : ExprKind}, (withReturnSlots g root).Below root n →
      (withReturnSlots g root).kind n = .expr k → g.Below root n ∧ g.kind n = .expr k := by
    intro n k hn hk
    have hb := (hslotted.new n hn).resolve_right (by simp [hk])
    exact ⟨hb, (hslotted.below n hb).2.symm.trans hk⟩
  have hname : ∀ {n : NodeId}, g.has n → (withReturnSlots g root).name? n = g.name? n :=
    fun hn => by rw [Graph.name?, Graph.name?, hextends.payload _ hn]
  cases h with
  | call hn hk href =>
    obtain ⟨hb, hk⟩ := hold hn hk
    exact .call hb hk ((hslotted.child _ .ref (by decide)).symm.trans href)
  | method hn hk hmethod hfunc hc hcls =>
    obtain ⟨hb, hk⟩ := hold hn hk
    rw [hextends.parents f hf hkind.1 hkind.2] at hc
    rw [hname (hg.has_below hb)] at hmethod
    rw [hname hf] at hfunc
    rw [hextends.kind _ (hg.kept.has_parent hc)] at hcls
    exact .method hb hk hmethod hfunc hc hcls

theorem standsFor_withReturnSlots (hg : Resolved g root) (h : StandsFor g root p n) :
    StandsFor (withReturnSlots g root) root p n := by
  obtain ⟨hslotted, -⟩ := slotted_withReturnSlots hg
  refine h.imp_right fun ⟨hn, hkind, href⟩ => ?_
  obtain ⟨hb, hk⟩ := hslotted.below n hn
  exact ⟨hb, hk.trans hkind, (hslotted.child n .ref nofun).trans href⟩

/-- A parameter that nobody feeds is one in the program with return slots. -/
theorem unfed_withReturnSlots (hg : Resolved g root) (hp : Unfed g root p) :
    Unfed (withReturnSlots g root) root p := by
  obtain ⟨hslotted, -⟩ := slotted_withReturnSlots hg
  obtain ⟨hb, hk⟩ := hslotted.below p hp.below
  have hparents : (withReturnSlots g root).parents p = g.parents p :=
    (extends_withReturnSlots hg).parents p (hg.has_below hp.below)
      (by simp [hp.kind, NodeKind.category]) (by simp [hp.kind])
  obtain ⟨f, hf, huncalled⟩ := hp.uncalled
  have hfbelow := hg.below_parent hp.below hf
  have hfkind : (g.kind f).category ≠ .type ∧ g.kind f ≠ .decl .classDecl := by
    obtain ⟨r, hr, he⟩ := (Graph.mem_parents_iff hg.kept).1 hf
    have hfits := hg.fits f hfbelow _ he hr
    rw [hp.kind] at hfits
    exact host_of_fits_param hfits
  refine ⟨hb, hk.trans hp.kind, (hslotted.child p .declaredType (by decide)).trans hp.undeclared, f,
    hparents ▸ hf, ?_⟩
  rcases huncalled with hno | ⟨n, hn, hkind, href⟩
  · exact Or.inl fun h => hno (namedByCall_of_withReturnSlots hg (hg.has_below hfbelow) hfkind h)
  · obtain ⟨hb, hk⟩ := hslotted.below n hn
    exact Or.inr ⟨n, hb, hk.trans hkind, (hslotted.child n .ref (by decide)).trans href⟩

/-! ## Seeds and what they come to -/

/-- Seeding shows everything for a parameter that nobody feeds. -/
theorem widen_univ_of_unfed (hg : Resolved g root) (hp : Unfed g root p)
    {requests : List Request}
    (hr : Flow.seedRequests g root true (typable g root) = .ok requests) :
    .widen p .univ ∈ requests := by
  obtain ⟨f, hf, huncalled⟩ := hp.uncalled
  obtain ⟨r, hrole, he⟩ := (Graph.mem_parents_iff hg.kept).1 hf
  have hparents := hg.rooted.parents_eq (hg.below_parent hp.below hf) he hrole
  have hnot : f ∉ Flow.directlyCalled g root := fun h => Flow.not_uncalled_of_mem h huncalled
  have hseed : Flow.seedNode g (Flow.directlyCalled g root) true p = .ok [.widen p .univ] := by
    simp only [Flow.seedNode, hp.kind, hp.undeclared, if_true, Flow.seedUndeclared, hparents,
      List.head?_cons, if_neg hnot]
  exact (Flow.mem_seedRequests hr).2
    (Or.inl ⟨p, hp.below, by rw [hp.kind]; rfl, _, hseed, List.mem_singleton_self _⟩)

/-- Where the rules come to rest, a parameter that nobody feeds and all that refers to it show
everything. -/
theorem shown_of_unfed (hg : Resolved g root) (hp : Unfed g root p) {seeds : BoundsTable}
    {stats : Stats} (hseeds : seeded g root true = .ok seeds)
    (hsettled : settled g root ceiling seeds = .ok (stats, t)) (hn : StandsFor g root p n) :
    t.shown n = .univ := by
  have ht := settled_of_seeded hg hseeds hsettled
  have htypable : (g.kind p).isTypable := by
    rw [hp.kind]
    rfl
  have hpshown : t.shown p = .univ := by
    obtain ⟨requests, hr, -⟩ := seeded_eq_ok.1 hseeds
    have hmet := met_of_seedRequests hg hseeds hsettled hr _ (widen_univ_of_unfed hg hp hr)
      (ht.bound hp.below htypable)
    exact hmet.resolve_right fun h => h.1 rfl
  rcases hn with rfl | ⟨hn, hkind, href⟩
  · exact hpshown
  · rw [BoundsTable.shown, ht.of?_reference hg hn (Or.inl hkind) href htypable]
    exact hpshown

/-! ## Faults -/

/-- An inference that finds no consistent type at a node reads its bounds from the table in which
the rules rest. -/
theorem bounds_of_inconsistent (hg : Resolved g root) {kind : NodeKind} {shown permitted : TypeSet}
    (h : ((run root ceiling allow).run g).1 = .error (.noConsistentType n kind shown permitted)) :
    ∃ t, restedTable? (withReturnSlots g root) root ceiling allow = some t ∧ t.shown n = shown := by
  have hslots := resolved_withReturnSlots hg
  rw [run_eq] at h
  rcases hseeds : seeded (withReturnSlots g root) root allow with fault | seeds
  · rw [hseeds] at h
    obtain rfl := Except.error.inj h
    obtain ⟨cause, hfault, -⟩ := badContainer_of_badType hslots
      (Flow.badType_of_seedRequests hslots (seeded_eq_error.1 hseeds))
    cases hfault
  · rw [hseeds] at h
    dsimp only at h
    rcases hsettled : settled (withReturnSlots g root) root ceiling seeds with fault | ⟨stats, t⟩
    · rw [hsettled] at h
      obtain rfl := Except.error.inj h
      cases diverged_of_settled hg hseeds hsettled
    · rw [hsettled] at h
      dsimp only at h
      refine ⟨t, by simp only [restedTable?, hseeds, hsettled], ?_⟩
      rw [Graph.run_colorAll] at h
      rcases hcolors : ((typable (withReturnSlots g root) root).forM (Palette.color t)).run
        (Palette.ofGraph (withReturnSlots g root)) with ⟨fault | _, p⟩
      · rw [hcolors] at h
        obtain rfl := Except.error.inj h
        rcases Palette.fault_of_forM_color hcolors with
          ⟨cause, hfault⟩ | ⟨m, -, k, b, hb, -, hfault⟩
        · cases hfault
        · cases hfault
          rw [BoundsTable.shown, hb]
          rfl
      · rw [hcolors] at h
        cases h

/-- With untyped parameters allowed, a parameter without a declared type of a function that is not
called shows everything where the rules rest, and so does what refers to it; and no inference stops
at one of them because nothing is shown for it. -/
theorem uncalled_shows_all (hg : Resolved g root) (hp : Unfed g root p)
    (hn : StandsFor g root p n) (ceiling : Nat) :
    (∀ t, restedTable? (withReturnSlots g root) root ceiling true = some t → t.shown n = .univ) ∧
    ∀ kind permitted,
      ((run root ceiling true).run g).1 ≠ .error (.noConsistentType n kind .empty permitted) := by
  have hall : ∀ t, restedTable? (withReturnSlots g root) root ceiling true = some t →
      t.shown n = .univ := by
    intro t ht
    unfold restedTable? at ht
    split at ht
    · cases ht
    · next seeds hseeds =>
      split at ht
      · cases ht
      · next stats rested hsettled =>
        obtain rfl := Option.some.inj ht
        exact shown_of_unfed (resolved_withReturnSlots hg) (unfed_withReturnSlots hg hp) hseeds
          hsettled (standsFor_withReturnSlots hg hn)
  refine ⟨hall, fun kind permitted h => ?_⟩
  obtain ⟨t, ht, hshown⟩ := bounds_of_inconsistent hg h
  cases (hall t ht).symm.trans hshown

/-- A function with a parameter that it returns, which nothing calls. -/
def lonelySource : Build Unit := do
  let f ← Program.function "identity"
  let _ ← Program.param f "x" none
  let _ ← Program.ret ⟨2⟩ (some (← Program.ident "x"))

/-- The program with its references tied. -/
def lonely : Graph := tied lonelySource

/-- What the function returns is everything. -/
theorem uncalled_shows_all_lonely : Resolved lonely Program.root ∧
    Unfed lonely Program.root ⟨3⟩ ∧ StandsFor lonely Program.root ⟨3⟩ ⟨4⟩ ∧
    (restedTable? (withReturnSlots lonely Program.root) Program.root 20 true).map
      (fun t => t.shown ⟨4⟩) = some .univ ∧
    (∀ t, restedTable? (withReturnSlots lonely Program.root) Program.root 20 true = some t →
      t.shown ⟨4⟩ = .univ) ∧
    ∀ kind permitted, ((run Program.root 20 true).run lonely).1 ≠
      .error (.noConsistentType ⟨4⟩ kind .empty permitted) := by
  have hresolved : Resolved lonely Program.root := by decide +kernel
  have hrested : (restedTable? (withReturnSlots lonely Program.root) Program.root 20 true).map
      (fun t => t.shown ⟨4⟩) = some .univ := by decide +kernel
  have hunfed : Unfed lonely Program.root ⟨3⟩ :=
    ⟨Graph.mem_visits_down.1 (by decide +kernel), by decide +kernel, by decide +kernel, ⟨1⟩,
      by decide +kernel, Or.inl (by decide +kernel)⟩
  have hstands : StandsFor lonely Program.root ⟨3⟩ ⟨4⟩ :=
    Or.inr ⟨Graph.mem_visits_down.1 (by decide +kernel), by decide +kernel, by decide +kernel⟩
  exact ⟨hresolved, hunfed, hstands, hrested, uncalled_shows_all hresolved hunfed hstands 20⟩

/-! ## What is missed -/

/-- A call of a function, or one of a method whose receiver may hold an object of its class. -/
inductive Feeds (g : Graph) (root : NodeId) (t : BoundsTable) (f : NodeId) : Prop
  | call {n : NodeId} (hn : g.Below root n) (hkind : g.kind n = .expr .call)
      (href : g.child? n .ref = some f)
  | dispatch {n c receiver : NodeId} {name : String} (hn : g.Below root n)
      (hkind : g.kind n = .expr .methodCall) (hname : g.name? n = some name)
      (hf : g.name? f = some name) (hc : c ∈ g.parents f) (hcls : g.kind c = .decl .classDecl)
      (hreceiver : g.child? n .receiver = some receiver)
      (hholds : Flow.receiver t receiver = .dynamic ∨
        ∃ decls, Flow.receiver t receiver = .classes decls ∧ c ∈ decls) : Feeds g root t f

/-- Two classes with methods of one name, of which one is called. -/
def sameNameSource : Build Unit := do
  let a ← Program.classDecl "A"
  let _ ← Program.param (← Program.method a "m") "x" none
  let b ← Program.classDecl "B"
  let _ ← Program.param (← Program.method b "m") "y" none
  let main ← Program.function "main"
  let block : NodeId := ⟨main.index + 1⟩
  let object ← Program.call "B" []
  let _ ← Program.varInit block "b" none object
  let receiver ← Program.ident "b"
  let one ← Program.int 1
  let call ← Program.methodCall receiver "m" [one]
  let _ ← Program.exprStmt block call

/-- The program with its references tied. -/
def sameName : Graph := tied sameNameSource

/-- No call feeds the method of the first class, and yet nothing is shown for its parameter. -/
theorem unfed_shows_nothing : Resolved sameName Program.root ∧
    sameName.kind ⟨4⟩ = .decl .param ∧ sameName.child? ⟨4⟩ .declaredType = none ∧
    sameName.parents ⟨4⟩ = [⟨2⟩] ∧
    (∃ t, restedTable? (withReturnSlots sameName Program.root) Program.root 20 true = some t ∧
      ¬Feeds sameName Program.root t ⟨2⟩ ∧ t.shown ⟨4⟩ = .empty) ∧
    ((run Program.root 20 true).run sameName).1 =
      .error (.noConsistentType ⟨4⟩ (.decl .param) .empty .univ) := by
  have hprogram : Resolved sameName Program.root ∧ sameName.kind ⟨4⟩ = .decl .param ∧
      sameName.child? ⟨4⟩ .declaredType = none ∧ sameName.parents ⟨4⟩ = [⟨2⟩] ∧
      ((run Program.root 20 true).run sameName).1 =
        .error (.noConsistentType ⟨4⟩ (.decl .param) .empty .univ) := by
    decide +kernel
  have hsites : (Flow.nodesOf sameName Program.root .call).filterMap
        (fun n => sameName.child? n .ref) = [] ∧
      (Flow.nodesOf sameName Program.root .methodCall).filterMap
        (fun n => sameName.child? n .receiver) = [⟨14⟩] ∧
      sameName.parents ⟨2⟩ = [⟨1⟩] := by
    decide +kernel
  have htable : (restedTable? (withReturnSlots sameName Program.root) Program.root 20 true).map
      (fun t => (Flow.receiver t ⟨14⟩, t.shown ⟨4⟩)) = some (.classes [⟨5⟩], .empty) := by
    decide +kernel
  obtain ⟨hresolved, hkind, hdeclared, hparents, hrun⟩ := hprogram
  obtain ⟨hcalls, hreceivers, hclass⟩ := hsites
  obtain ⟨t, ht, hbounds⟩ := Option.map_eq_some_iff.1 htable
  obtain ⟨hreceiver, hshown⟩ := Prod.mk.inj hbounds
  refine ⟨hresolved, hkind, hdeclared, hparents, ⟨t, ht, fun hfeeds => ?_, hshown⟩, hrun⟩
  cases hfeeds with
  | call hn hkind href =>
    have hmem := (List.mem_filterMap (f := fun n => sameName.child? n .ref)).2
      ⟨_, Flow.mem_nodesOf.2 ⟨hn, hkind⟩, href⟩
    rw [hcalls] at hmem
    cases hmem
  | dispatch hn hkind _ _ hc _ hchild hholds =>
    have hmem := (List.mem_filterMap (f := fun n => sameName.child? n .receiver)).2
      ⟨_, Flow.mem_nodesOf.2 ⟨hn, hkind⟩, hchild⟩
    rw [hreceivers] at hmem
    obtain rfl := List.mem_singleton.1 hmem
    rw [hclass] at hc
    obtain rfl := List.mem_singleton.1 hc
    rw [hreceiver] at hholds
    simp at hholds

end Inference

end TypeFlow
