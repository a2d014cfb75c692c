import TypeFlow.Proofs.Inference.DeclaredTypes
import TypeFlow.Proofs.Reference.Resolved
/-!
# Shared types

A reference shares the slot of its definition, and nodes of which a table has the same get one type
node. So once the references of a lowered program are tied and its types inferred, a variable and
all that refers to it have the very same type node (`Colored.reference`, `shared_types`). A function
that is used as a value has no slot to share: its identifier can yield everything, and is colored by
what it is permitted (`shown_of_function`). That is not always everything
(`narrowed_function_is_colored_int`).
-/

namespace TypeFlow

open TypeSet Program

namespace Inference

variable {g h g' : Graph} {root n m d r : NodeId} {t seeds : BoundsTable} {allow : Bool}
  {ceiling rounds : Nat} {stats : Stats}

/-! ## The colored program -/

/-- A node that is tied to another one in the colored program was so before, to a node of the
program that it may refer to and that has kept its kind. -/
structure TiedTo (g g' : Graph) (root n d : NodeId) : Prop where
  ref : g.child? n .ref = some d
  below : g.Below root d
  refers : refersTo (g.kind n) (g.kind d)
  kind : g'.kind d = g.kind d

/-- Colors bring nothing below the root. -/
theorem Colored.below (hcolored : Colored g root t g') (hg : Resolved g root)
    (hn : g'.Below root n) : g.Below root n := by
  induction hn with
  | root => exact .root
  | @child m e _ he hr ih =>
    have hne : e.role ≠ .colored := by
      intro hc
      rw [hc] at hr
      cases hr
    have hchild : g'.child? m e.role = some e.node := (Graph.child?_eq_some hcolored.kept).2 he
    rw [hcolored.grown.child m e.role (hg.has_below ih) hne] at hchild
    exact ih.of_child? hchild hr

section Colored

variable (hcolored : Colored g root t g') (hg : Resolved g root) (hn : g'.Below root n)
include hcolored hg hn

theorem Colored.kind_eq : g'.kind n = g.kind n :=
  hcolored.grown.kind n (hg.has_below (hcolored.below hg hn))

theorem Colored.child?_eq {q : Role} (hq : q ≠ .colored) : g'.child? n q = g.child? n q :=
  hcolored.grown.child n q (hg.has_below (hcolored.below hg hn)) hq

/-- What a node is tied to is a node of the program. -/
theorem Colored.tied (hd : g'.child? n .ref = some d) : TiedTo g g' root n d := by
  rw [hcolored.child?_eq hg hn (q := .ref) nofun] at hd
  obtain ⟨hbelow, hrefers⟩ := hg.tied n (hcolored.below hg hn) d hd
  exact ⟨hd, hbelow, hrefers, hcolored.grown.kind d (hg.has_below hbelow)⟩

/-- A reference has the color of its definition. -/
theorem Colored.reference (ht : Tidy g root t)
    (hkind : g'.kind n = .expr .ident ∨ g'.kind n = .expr .fieldGet)
    (hd : g'.child? n .ref = some d) (htypable : (g'.kind d).isTypable) :
    ∃ k, g'.coloredType? n = some k ∧ g'.coloredType? d = some k := by
  have hbelow := hcolored.below hg hn
  rw [hcolored.kind_eq hg hn] at hkind
  obtain ⟨href, hdbelow, -, hdkind⟩ := hcolored.tied hg hn hd
  rw [hdkind] at htypable
  have hntypable : (g.kind n).isTypable := by rcases hkind with h | h <;> rw [h] <;> rfl
  obtain ⟨k, hk, -⟩ := hcolored.color n hbelow hntypable
  refine ⟨k, hk, ?_⟩
  rw [← hk]
  exact (hcolored.shared n d hbelow hntypable hdbelow htypable
    (ht.of?_reference hg hbelow hkind href htypable)).symm

end Colored

/-! ## Fields of one's own -/

/-- Where nodes are settled, a field that is read on the object itself is tied. -/
theorem exists_ref_of_ownField (hh : Resolved h root)
    (hsettled : ∀ n, h.Below root n → Reference.Settled g h root n)
    (hn : (withReturnSlots h root).Below root n)
    (hkind : (withReturnSlots h root).kind n = .expr .fieldGet)
    (hr : (withReturnSlots h root).child? n .receiver = some r)
    (hself : (withReturnSlots h root).kind r = .expr .selfRef) :
    ∃ d, (withReturnSlots h root).child? n .ref = some d := by
  obtain ⟨hslotted, -⟩ := slotted_withReturnSlots hh
  have hbelow : h.Below root n := (hslotted.new n hn).resolve_right fun hslot => by
    cases hkind.symm.trans hslot
  rw [hslotted.child n .receiver nofun] at hr
  rw [(hslotted.below n hbelow).2] at hkind
  rw [(hslotted.below r (hbelow.of_child? hr rfl)).2] at hself
  obtain ⟨-, d, -, hd, -⟩ := (hsettled n hbelow).ownField hkind r hr hself
  exact ⟨d, (hslotted.child n .ref nofun).trans hd⟩

/-! ## Functions as values -/

/-- A function that is used as a value can yield everything. -/
theorem shown_of_function (hg : Resolved g root) (hseeds : seeded g root allow = .ok seeds)
    (hsettled : settled g root ceiling seeds = .ok (stats, t)) (hn : g.Below root n)
    (hkind : g.kind n = .expr .ident) (hd : g.child? n .ref = some d)
    (hfunction : g.kind d = .decl .function) : t.shown n = .univ := by
  have htypable : (g.kind n).isTypable := by rw [hkind]; rfl
  obtain ⟨requests, hrequests, -⟩ := seeded_eq_ok.1 hseeds
  have hseed : Flow.seedNode g (Flow.directlyCalled g root) allow n = .ok [.widen n .univ] := by
    simp [Flow.seedNode, hkind, hd, hfunction]
  have hq : .widen n .univ ∈ requests :=
    (Flow.mem_seedRequests hrequests).2 (Or.inl ⟨n, hn, htypable, _, hseed, by simp⟩)
  have ht := settled_of_seeded hg hseeds hsettled
  exact univ_within.1
    (met_of_seedRequests hg hseeds hsettled hrequests _ hq (ht.bound hn htypable))

theorem kind_iff_of_denotes {k : NodeId} {x : TypeSet} (h : g.Denotes k x) :
    g.kind k = .type .dynamic ↔ x = .univ := by
  cases h with
  | dynamic hk | base hk | generic hk | cls hk => simp [hk]

/-- The identifier of a function is colored by what it is permitted. -/
theorem Colored.of_function (hcolored : Colored g root t g') (hall : Palette.Colorable g t n)
    (hn : g.Below root n) (hkind : g.kind n = .expr .ident) (hshown : t.shown n = .univ) :
    ∃ k, g'.coloredType? n = some k ∧ g'.Denotes k (t.permitted n).reduced := by
  have htypable : (g.kind n).isTypable := by rw [hkind]; rfl
  have hne : t.permitted n ≠ .empty := by
    have hvalid := hall.resolve_right (by simp [Palette.mayYieldNothing, hkind])
    rwa [hshown, univ_inter] at hvalid
  obtain ⟨k, hk, hfits⟩ := hcolored.color n hn htypable
  unfold Palette.Fits at hfits
  simp only [hshown, univ_inter] at hfits
  exact ⟨k, hk, (hfits.resolve_left fun he => hne he.1).2.denotes⟩

/-! ## The types of references -/

/-- If the references of a lowered program are tied and its types inferred, both without a fault,
every identifier of a variable and every field that is read on the object itself has the very same
type node as the definition that it is tied to. Every identifier of a function can yield
everything, and has the type of what it is permitted when the rules come to rest: it is dynamic if
and only if that reduces to everything. -/
theorem shared_types (hg : Lowered g root) {report : Reference.Report} {found : Report}
    (hties : (Reference.run root rounds).run g = (.ok report, h))
    (hrun : (run root ceiling allow).run h = (.ok found, g')) :
    (∀ n d, g'.Below root n → g'.kind n = .expr .ident → g'.child? n .ref = some d →
      isVariable (g'.kind d) →
        ∃ k, g'.coloredType? n = some k ∧ g'.coloredType? d = some k) ∧
    (∀ n r, g'.Below root n → g'.kind n = .expr .fieldGet → g'.child? n .receiver = some r →
      g'.kind r = .expr .selfRef → ∃ d k, g'.child? n .ref = some d ∧ g'.kind d = .decl .field ∧
        g'.coloredType? n = some k ∧ g'.coloredType? d = some k) ∧
    ∃ seeds stats t, seeded (withReturnSlots h root) root allow = .ok seeds ∧
      settled (withReturnSlots h root) root ceiling seeds = .ok (stats, t) ∧
        ∀ n d, g'.Below root n → g'.kind n = .expr .ident → g'.child? n .ref = some d →
          g'.kind d = .decl .function → t.shown n = .univ ∧
            ∃ k, g'.coloredType? n = some k ∧ g'.Denotes k (t.permitted n).reduced ∧
              (g'.kind k = .type .dynamic ↔ (t.permitted n).reduced = .univ) := by
  obtain ⟨hh, hnodes⟩ := Reference.resolved_of_run hg hties
  have hslots := resolved_withReturnSlots hh
  cases ends_of_run hh hrun nofun with
  | @colored _ _ seeds t stats hseeds hsettled hall hcolored =>
    have ht := settled_of_seeded hslots hseeds hsettled
    refine ⟨fun n d hn hkind hd hvariable => ?_, fun n r hn hkind hr hself => ?_,
      seeds, stats, t, hseeds, hsettled, fun n d hn hkind hd hfunction => ?_⟩
    · exact hcolored.reference hslots hn ht.toTidy (Or.inl hkind) hd
        (isTypable_of_isVariable hvariable)
    · have hbelow := hcolored.below hslots hn
      have href : ∃ d, g'.child? n .ref = some d := by
        rw [hcolored.child?_eq hslots hn (q := .ref) nofun]
        rw [hcolored.kind_eq hslots (hn.of_child? hr rfl)] at hself
        rw [hcolored.child?_eq hslots hn (q := .receiver) nofun] at hr
        rw [hcolored.kind_eq hslots hn] at hkind
        exact exists_ref_of_ownField hh hnodes hbelow hkind hr hself
      obtain ⟨d, hd⟩ := href
      obtain ⟨-, -, hrefers, hdkind⟩ := hcolored.tied hslots hn hd
      have hfield : g'.kind d = .decl .field := by
        rw [hdkind]
        rw [hcolored.kind_eq hslots hn] at hkind
        simpa [hkind, refersTo] using hrefers
      obtain ⟨k, hk, hk'⟩ := hcolored.reference hslots hn ht.toTidy (Or.inr hkind) hd
        (by rw [hfield]; rfl)
      exact ⟨d, k, hd, hfield, hk, hk'⟩
    · have hbelow := hcolored.below hslots hn
      obtain ⟨href, -, -, hdkind⟩ := hcolored.tied hslots hn hd
      rw [hcolored.kind_eq hslots hn] at hkind
      rw [hdkind] at hfunction
      have hshown := shown_of_function hslots hseeds hsettled hbelow hkind href hfunction
      obtain ⟨k, hk, hdenotes⟩ := hcolored.of_function
        (hall n (Graph.mem_reachable.2 ⟨hbelow, by rw [hkind]; rfl⟩)) hbelow hkind hshown
      exact ⟨hshown, k, hk, hdenotes, kind_iff_of_denotes hdenotes⟩

/-- A method that reads a field of its class into a local and returns the local, and a function that
assigns itself as a value. -/
def sharingSource : Build Unit := do
  let counter ← Program.classDecl "Counter"
  let int ← Program.baseType .int
  let zero ← Program.int 0
  let _ ← Program.field counter "count" (some int) (some zero)
  let _ ← Program.method counter "get"
  let read ← Program.fieldGet (← Program.selfRef) "count"
  let _ ← Program.varInit ⟨6⟩ "seen" none read
  let _ ← Program.ret ⟨6⟩ (some (← Program.ident "seen"))
  let _ ← Program.function "main"
  let _ ← Program.varInit ⟨14⟩ "chosen" none (← Program.ident "main")

def sharing : Graph := (sharingSource.run Program.empty).2

/-- The program with its references tied. -/
def sharingTied : Graph := ((Reference.run Program.root 1).run sharing).2

/-- The program with its types inferred. -/
def sharingColored : Graph := ((run Program.root 20 false).run sharingTied).2

/-- The returned identifier has the type node of the local, and the field that is read that of the
field. The function that is a value is colored by what it is permitted. -/
theorem shared_types_sharing : Lowered sharing Program.root ∧
    ((Reference.run Program.root 1).run sharing).1 = .ok ⟨3, 1, 1, ⟨2, 1, 5⟩⟩ ∧
    ((run Program.root 20 false).run sharingTied).1 = .ok ⟨⟨2, 1, 7⟩, 8, ⟨12, 3, 1⟩⟩ ∧
    (∃ k, sharingColored.coloredType? ⟨11⟩ = some k ∧ sharingColored.coloredType? ⟨19⟩ = some k) ∧
    (∃ d k, sharingColored.child? ⟨8⟩ .ref = some d ∧ sharingColored.kind d = .decl .field ∧
      sharingColored.coloredType? ⟨8⟩ = some k ∧ sharingColored.coloredType? d = some k) ∧
    ∃ seeds stats t,
      seeded (withReturnSlots sharingTied Program.root) Program.root false = .ok seeds ∧
      settled (withReturnSlots sharingTied Program.root) Program.root 20 seeds = .ok (stats, t) ∧
        t.shown ⟨15⟩ = .univ ∧ ∃ k, sharingColored.coloredType? ⟨15⟩ = some k ∧
          sharingColored.Denotes k (t.permitted ⟨15⟩).reduced ∧
            (sharingColored.kind k = .type .dynamic ↔ (t.permitted ⟨15⟩).reduced = .univ) := by
  have hlowered : Lowered sharing Program.root := by decide +kernel
  have hties : ((Reference.run Program.root 1).run sharing).1 = .ok ⟨3, 1, 1, ⟨2, 1, 5⟩⟩ := by
    decide +kernel
  have hrun : ((run Program.root 20 false).run sharingTied).1 =
      .ok ⟨⟨2, 1, 7⟩, 8, ⟨12, 3, 1⟩⟩ := by decide +kernel
  have hbelow : ∀ n ∈ [⟨8⟩, ⟨11⟩, ⟨15⟩], sharingColored.Below Program.root n :=
    fun n hn => Graph.mem_visits_down.1 (by revert n; decide +kernel)
  have hnodes : sharingColored.kind ⟨11⟩ = .expr .ident ∧
      sharingColored.child? ⟨11⟩ .ref = some ⟨19⟩ ∧ isVariable (sharingColored.kind ⟨19⟩) ∧
      sharingColored.kind ⟨8⟩ = .expr .fieldGet ∧
      sharingColored.child? ⟨8⟩ .receiver = some ⟨7⟩ ∧ sharingColored.kind ⟨7⟩ = .expr .selfRef ∧
      sharingColored.kind ⟨15⟩ = .expr .ident ∧ sharingColored.child? ⟨15⟩ .ref = some ⟨13⟩ ∧
      sharingColored.kind ⟨13⟩ = .decl .function := by decide +kernel
  obtain ⟨hident, href, hvariable, hread, hreceiver, hself, hvalue, hmain, hfunction⟩ := hnodes
  obtain ⟨hvariables, hfields, seeds, stats, t, hseeds, hsettled, hfunctions⟩ :=
    shared_types hlowered (Prod.fst_eq_iff.1 hties) (Prod.fst_eq_iff.1 hrun)
  exact ⟨hlowered, hties, hrun, hvariables ⟨11⟩ ⟨19⟩ (hbelow _ (by simp)) hident href hvariable,
    hfields ⟨8⟩ ⟨7⟩ (hbelow _ (by simp)) hread hreceiver hself,
    seeds, stats, t, hseeds, hsettled,
    hfunctions ⟨15⟩ ⟨13⟩ (hbelow _ (by simp)) hvalue hmain hfunction⟩

/-- A function that declares a variable as a number and assigns another function to it. -/
def narrowedSource : Build Unit := do
  let _ ← Program.function "f"
  let _ ← Program.function "main"
  let int ← Program.baseType .int
  let _ ← Program.varInit ⟨4⟩ "x" (some int) (← Program.ident "f")

def narrowed : Graph := (narrowedSource.run Program.empty).2

/-- The program with its references tied. -/
def narrowedTied : Graph := ((Reference.run Program.root 1).run narrowed).2

/-- The program with its types inferred. -/
def narrowedColored : Graph := ((run Program.root 20 false).run narrowedTied).2

/-- The identifier of the function is not dynamic: it is colored as the number that the variable is
declared to be. -/
theorem narrowed_function_is_colored_int : Lowered narrowed Program.root ∧
    ((Reference.run Program.root 1).run narrowed).1 = .ok ⟨1, 2, 0, ⟨2, 1, 2⟩⟩ ∧
    ((run Program.root 20 false).run narrowedTied).1 = .ok ⟨⟨2, 1, 2⟩, 4, ⟨5, 0, 2⟩⟩ ∧
    narrowedColored.Below Program.root ⟨6⟩ ∧ narrowedColored.kind ⟨6⟩ = .expr .ident ∧
    narrowedColored.child? ⟨6⟩ .ref = some ⟨1⟩ ∧ narrowedColored.kind ⟨1⟩ = .decl .function ∧
    narrowedColored.coloredType? ⟨6⟩ = some ⟨14⟩ ∧
      narrowedColored.kind ⟨14⟩ = .type (.base .int) := by
  refine ⟨by decide +kernel, by decide +kernel, by decide +kernel,
    Graph.mem_visits_down.1 (by decide +kernel), by decide +kernel⟩

end Inference

end TypeFlow
