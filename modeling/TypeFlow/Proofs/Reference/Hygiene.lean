import TypeFlow.Proofs.Lowering.Planting
import TypeFlow.Proofs.Reference.Resolved
/-!
# Lowered loops have variables of their own

A lowered loop writes two variables, so that the function around it has locals for
them, unless something else has their names: all loops of a function share one table, and fields are
seen from methods. But no parameter and no field has such a name, and no two loops have names in
common. So each loop gets two locals to which nothing is tied but its own identifiers
(`Reference.hygienic`).
-/

namespace TypeFlow

open TypeFlow.Graph Program

namespace Program

variable {g : Graph} {root n f : NodeId}

/-! ## Statements and functions -/

theorem Outlined.exists_host (h : Outlined g root) (hf : g.Below root f)
    (hk : g.kind f = .decl .function) : ∃ host, Hosted g root host f := by
  rcases h.hosts f hf (by rw [hk]; rfl) with rfl | hitem | ⟨-, cls, hcls, hclass, hmem⟩
  · cases h.program.symm.trans hk
  · exact ⟨root, .program hitem hk⟩
  · exact ⟨cls, .method hcls hclass hmem hk⟩

/-- Every statement of a lowered program stands in the body of a function. -/
theorem Lowered.exists_body (hg : Lowered g root) (hn : g.Below root n) :
    ∀ {s : StmtKind}, g.kind n = .stmt s → ∃ host f body, Hosted g root host f ∧
      g.child? f .body = some body ∧ g.Below body n := by
  induction hn with
  | root => exact fun hk => by cases hg.program.symm.trans hk
  | @child m e hm he hstr ih =>
    intro s hk
    have hfits := hg.fits m hm e he hstr
    rw [hk] at hfits
    rcases heldBy_of_fits hfits with ⟨hkind, hrole⟩ | ⟨s', hkind⟩
    · obtain ⟨host, hf⟩ := hg.exists_host hm hkind
      exact ⟨host, m, e.node, hf, (child?_eq_some hg.kept).2 (hrole ▸ he), .root⟩
    · obtain ⟨host, f, body, hf, hbody, hbelow⟩ := ih hkind
      exact ⟨host, f, body, hf, hbody, hbelow.child he hstr⟩

end Program

namespace Scopes

variable {s : Scopes} {h c : Graph} {root n d : NodeId} {name : String}

/-- What is found under a name has the name. -/
theorem Stage.name?_of_found (hs : Stage h root (Listed h root (h.items root)) s c)
    (hh : Outlined h root) (hfunctions : ∀ name, s.function? name = member? h root .function name)
    (hd : (s.lookup? c n name).or (s.function? name) = some d) : c.name? d = some name := by
  rcases Option.or_eq_some_iff.1 hd with hd | ⟨-, hd⟩
  · obtain ⟨host, t, ht, hd⟩ := exists_table_of_lookup? hd
    exact hs.name?_of_get? hh ht hd
  · rw [hfunctions] at hd
    obtain ⟨hmem, -, hname⟩ := mem_of_member? hd
    rw [name?_eq hs.sprouts.grows (hh.has_below (Below.root.of_mem_items hmem)), hname]

end Scopes

namespace Lowering

open Scopes

variable {g h : Graph} {root n host : NodeId} {base : NodeId → Nat} {name : String}

/-! ## What a lowered loop writes -/

/-- A counting loop that stands writes its two variables. -/
theorem Planted.writes {var name : String} {start : Nat} (hp : Planted g n var start)
    (hname : IsNameOf n name) : ∃ stmt, g.Below ⟨start⟩ stmt ∧ isWrite (g.kind stmt) ∧
      writtenName? g stmt = some name := by
  obtain ⟨iter, body, hedges⟩ := hp.edges
  have hwritten : ∀ i j, (loopNodes var (iteratorName n) (counterName n))[i]? =
        some (.stmt .varInit, .none) →
      (loopNodes var (iteratorName n) (counterName n))[j]? = some (.expr .ident, .str name) →
      .setChild (.new i) .target (.new j) ∈ loopEdits iter body →
        ∃ stmt, g.Below ⟨start⟩ stmt ∧ isWrite (g.kind stmt) ∧
          writtenName? g stmt = some name := by
    intro i j hi hj hedit
    obtain ⟨-, hkind, hjname⟩ := hp.of_uses ⟨j, hj, rfl⟩
    refine ⟨⟨start + i⟩, hp.below (List.getElem?_eq_some_iff.1 hi).1, ?_, ?_⟩
    · rw [(hp.node i _ hi).1]
      rfl
    · have hchild : g.child? ⟨start + i⟩ .target = some ⟨start + j⟩ := hedges _ hedit
      rw [writtenName?, hchild]
      simp only [hkind, if_true, hjname]
  rcases hname with rfl | rfl
  · exact hwritten 2 1 rfl rfl (by simp [loopEdits])
  · exact hwritten 5 3 rfl rfl (by simp [loopEdits])

/-- No parameter and no field has a name of a lowered loop. -/
theorem LoopsPlanted.member?_eq_none (hs : LoopsPlanted g root base h) (hhost : h.Below root host)
    (hreserved : isReserved name) {kind : DeclKind} (hkind : namesVariable (.decl kind)) :
    member? h host kind name = none := by
  refine Option.eq_none_iff_forall_ne_some.2 fun d hd => ?_
  obtain ⟨hmem, hk, hname⟩ := mem_of_member? hd
  have hident := hs.ident_of_isReserved (hhost.of_mem_items hmem) (by rw [hk]; exact hkind) hname
    hreserved
  cases hk.symm.trans hident

end Lowering

namespace Reference

open Scopes Lowering

variable {s : Scopes} {g h c r : Graph} {root n m x d host f body : NodeId} {base : NodeId → Nat}
  {name var : String} {start : Nat}

/-! ## Back to the lowered program -/

section Linked

variable (hl : Linked s c r) (hs : Sprouts h c) (hh : Lowered h root)
include hl hs hh

/-- An identifier of the tied program was one before. -/
theorem Linked.ident_of_below (hx : r.Below root x) (hk : r.kind x = .expr .ident) :
    h.Below root x ∧ h.kind x = .expr .ident ∧ h.name? x = r.name? x := by
  have hkind : c.kind x = .expr .ident := (hl.kind_iff rfl x).1 hk
  rcases hs.below_cases hh.toOutlined ((hl.below_iff root).1 hx) with hold | hnew | hnew
  · have hhas := hh.has_below hold
    exact ⟨hold, (hs.grows.kind x hhas).symm.trans hkind,
      ((hl.name?_eq x).trans (Scopes.name?_eq hs.grows hhas)).symm⟩
  · cases hkind.symm.trans hnew
  · cases hkind.symm.trans hnew

/-- A counting loop stands where it stood. -/
theorem Linked.planted (hp : Planted h n var start) (hbelow : h.Below root ⟨start⟩) :
    Planted r n var start := by
  have hhas : ∀ i < 24, h.has ⟨start + i⟩ := fun i hi => hh.has_below (hbelow.trans (hp.below hi))
  refine hp.mono (fun i hi => ⟨?_, ?_⟩) (fun i hi j _ q href hlocals hchild => ?_)
    fun i hi j _ hitem => ?_
  · have hsteady : isSteady (h.kind ⟨start + i⟩) := hp.kind_of_all rfl hi
    exact (hl.kind_iff hsteady _).2 (hs.grows.kind _ (hhas i hi))
  · rw [hl.payload, hs.grows.payload _ (hhas i hi)]
  · rwa [hl.child?_eq href, hs.grows.child?_eq (hhas i hi) hlocals]
  · rwa [hl.items_eq, hs.grows.items_eq (hhas i hi)]

theorem Linked.hosted (hf : Hosted h root host f) : Hosted r root host f := by
  have hfc := Scopes.hosted hs.grows hh.toOutlined hf
  cases hfc with
  | program hitem hkind =>
    exact .program (by rwa [hl.items_eq]) ((hl.kind_iff rfl f).2 hkind)
  | method hcls hclass hitem hkind =>
    exact .method (by rwa [hl.items_eq]) ((hl.kind_iff rfl host).2 hclass) (by rwa [hl.items_eq])
      ((hl.kind_iff rfl f).2 hkind)

end Linked

/-! ## Variables of one loop -/

/-- A local of a function to which some identifiers are tied, and no others. -/
structure Private (r : Graph) (root f d : NodeId) (name : String) (uses : NodeId → Prop) :
    Prop where
  mem : d ∈ locals r f
  kind : r.kind d = .decl .varDef
  name : r.name? d = some name
  tied : ∀ x, (r.Below root x ∧ r.kind x = .expr .ident ∧ r.child? x .ref = some d) ↔ uses x

section Run

variable (hh : Lowered h root) (hs : Stage h root (Listed h root (h.items root)) s c)
  (hfunctions : ∀ name, s.function? name = member? h root .function name)
  (hcollect : (collect root).run h = (.ok s, c)) {ceiling : Nat} {report : Report}
  (hrun : (run root ceiling).run h = (.ok report, r))
include hh hs hfunctions hcollect hrun

/-- The function around a counting loop that stands has a local of its own for each of the two
variables of the loop. -/
theorem exists_private (hu : Unreserved g root) (hplanted : LoopsPlanted g root base h)
    (hn : Loop g root n) (hvar : g.name? n = some var) (hp : Planted h n var (base n))
    (hf : Hosted h root host f) (hbody : h.child? f .body = some body)
    (hbelow : h.Below body ⟨base n⟩) (hname : IsNameOf n name) :
    ∃ d, Private r root f d name (Uses n var (base n) name) := by
  have hgc := hs.sprouts.grows
  obtain ⟨stats, hfix, -⟩ := fixpoint_of_run hcollect hrun
  have hl : Linked s c r := linked_of_fixpoint (hgc.untied hh.untied) hfix
  obtain ⟨hdeclares, hties⟩ := meant_of_run hh.toUnscoped hs hfunctions hcollect hrun hf
  -- the name is written, and neither a parameter nor a field has it
  obtain ⟨stmt, hstmt, hwrite, hwritten⟩ := hp.writes hname
  have hparam : member? h f .param name = none :=
    hplanted.member?_eq_none hf.below hname.isReserved rfl
  have hfield : member? h host .field name = none :=
    hplanted.member?_eq_none hf.below_host hname.isReserved rfl
  obtain ⟨d, hd⟩ := hdeclares.exists_local
    (mem_localNames (mem_targetNames hbody (hbelow.trans hstmt) hwrite hwritten) hparam hfield)
  obtain ⟨hmem, hdname⟩ := mem_of_local? hd
  have hmeant : meant? r root host f name = some d := by
    rw [meant?, hl.member?_eq f, member?_eq hgc hh.kept (hh.has_below hf.below), hparam, hd]
    rfl
  refine ⟨d, hmem, hdeclares.kind d hmem, hdname, fun x => ⟨?_, fun hx => ?_⟩⟩
  · rintro ⟨hx, hk, href⟩
    have hcandidate : x ∈ c.reachable root fun _ => true :=
      mem_reachable.2 ⟨(hl.below_iff root).1 hx, rfl⟩
    obtain ⟨name', d', hxname, href', hfound⟩ :=
      hl.ident (Rule.quiet_of_fixpoint hfix (identRule s) (by simp [rules]) x hcandidate) hk
    obtain rfl : d = d' := Option.some.inj (href.symm.trans href')
    have hdname' := hs.name?_of_found hh.toOutlined hfunctions hfound
    rw [← hl.name?_eq, hdname, Option.some.injEq] at hdname'
    obtain ⟨hxh, hkh, hxhname⟩ := hl.ident_of_below hs.sprouts hh hx hk
    exact hplanted.uses_of_isNameOf hu hn hvar hname hxh hkh
      (by rw [hxhname, hxname, hdname'])
  · obtain ⟨hxbelow, hk, hxname⟩ := hp.of_uses hx
    have hxf : h.Below f x := (Below.root.of_child? hbody rfl).trans (hbelow.trans hxbelow)
    have hhas := hh.has_below (hf.below.trans hxf)
    have hxr : r.Below f x := (hl.below_iff f).2 (hs.sprouts.keeps_below hxf)
    have hkr : r.kind x = .expr .ident := (hl.kind_iff rfl x).2 ((hgc.kind x hhas).trans hk)
    obtain ⟨name', d', hxname', href, hmeant', -⟩ := hties x hxr hkr
    rw [hl.name?_eq, name?_eq hgc hhas, hxname, Option.some.injEq] at hxname'
    rw [← hxname', hmeant, Option.some.injEq] at hmeant'
    refine ⟨?_, hkr, hmeant' ▸ href⟩
    exact (hl.below_iff root).2 (hs.sprouts.keeps_below (hf.below.trans hxf))

end Run

/-! ## All loops -/

/-- A counting loop stands below a function that has two locals of its own for it. -/
structure OwnVariables (r : Graph) (root n : NodeId) (var : String) (base : Nat)
    (f iterator counter : NodeId) : Prop where
  planted : Planted r n var base
  below : r.Below f ⟨base⟩
  iterator : Private r root f iterator (iteratorName n) (Uses n var base (iteratorName n))
  counter : Private r root f counter (counterName n) (Uses n var base (counterName n))

/-- In a program whose variables do not have names like those of lowered loops, each loop is lowered
to a counting loop, made of new nodes, that has its iterator and its counter to itself: of all
identifiers of the program, those of the counting loop that have the name are tied to it, and no
others. No two loops share a variable. Nodes are numbered by 32 bits, which the lowered program must
not outgrow. -/
theorem hygienic (hp : Parsed g root) (hc : Composed g root) (hu : Unreserved g root) {k : Nat}
    (hlower : (Lowering.run root).run g = (.ok k, h)) (hsmall : h.size ≤ 2 ^ 32) {ceiling : Nat}
    {report : Report} (htie : (run root ceiling).run h = (.ok report, r)) :
    ∃ (base : NodeId → Nat) (iterator counter : NodeId → NodeId),
      (∀ n, Loop g root n → g.size ≤ base n ∧ ∃ var host f, g.name? n = some var ∧
        Hosted r root host f ∧ OwnVariables r root n var (base n) f (iterator n) (counter n)) ∧
      ∀ n m, Loop g root n → Loop g root m → iterator n ≠ counter m ∧
        (iterator n = iterator m → n = m) ∧ (counter n = counter m → n = m) := by
  obtain ⟨k', h', hlower', hlowered⟩ := run_lowered hp hc
  obtain rfl : h' = h := (Prod.mk.inj (hlower'.symm.trans hlower)).2
  have hh : Lowered h' root := (hlowered hsmall).1
  obtain ⟨base, hplanted⟩ := loopsPlanted_of_run hp hc hu hlower hsmall
  obtain ⟨s, c, hcollect, hs, hfunctions⟩ := yields_collect hh.toUnscoped
  obtain ⟨stats, hfix, -⟩ := fixpoint_of_run hcollect htie
  have hl : Linked s c r := linked_of_fixpoint (hs.sprouts.grows.untied hh.untied) hfix
  have hown : ∀ n, Loop g root n → ∃ iterator counter, ∃ var host f, g.name? n = some var ∧
      Hosted r root host f ∧ OwnVariables r root n var (base n) f iterator counter := by
    intro n hn
    obtain ⟨-, hbelow, var, hvar, hstands⟩ := hplanted.planted n hn
    obtain ⟨host, f, body, hf, hbody, hblock⟩ := hh.exists_body hbelow (hstands.node 0 _ rfl).1
    have hown : ∀ name, IsNameOf n name → ∃ d, Private r root f d name (Uses n var (base n) name) :=
      fun name => exists_private hh hs hfunctions hcollect htie hu hplanted hn hvar hstands hf hbody
        hblock
    obtain ⟨iterator, hiterator⟩ := hown _ (Or.inl rfl)
    obtain ⟨counter, hcounter⟩ := hown _ (Or.inr rfl)
    exact ⟨iterator, counter, var, host, f, hvar, hl.hosted hs.sprouts hh hf,
      hl.planted hs.sprouts hh hstands hbelow, (hl.below_iff f).2 (hs.sprouts.keeps_below
        ((Below.root.of_child? hbody rfl).trans hblock)), hiterator, hcounter⟩
  choose! iterator counter hown using hown
  have hnames : ∀ n, Loop g root n → r.name? (iterator n) = some (iteratorName n) ∧
      r.name? (counter n) = some (counterName n) := by
    intro n hn
    obtain ⟨var, host, f, -, -, hvariables⟩ := hown n hn
    exact ⟨hvariables.iterator.name, hvariables.counter.name⟩
  refine ⟨base, iterator, counter, fun n hn => ⟨(hplanted.planted n hn).1, hown n hn⟩,
    fun n m hn hm => ⟨fun hsame => ?_, fun hsame => ?_, fun hsame => ?_⟩⟩
  · have hname := (hnames n hn).1
    rw [hsame, (hnames m hm).2, Option.some.injEq] at hname
    exact iteratorName_ne_counterName n m hname.symm
  · have hname := (hnames n hn).1
    rw [hsame, (hnames m hm).1, Option.some.injEq] at hname
    exact (iteratorName_inj hname).symm
  · have hname := (hnames n hn).2
    rw [hsame, (hnames m hm).2, Option.some.injEq] at hname
    exact (counterName_inj hname).symm

/-- A class with a method that has a loop over a field and, in its body, one over the row. -/
def loopingSource : Build Unit := do
  let grid ← Program.classDecl "Grid"
  let _ ← Program.field grid "rows" none none
  let walk ← Program.method grid "walk"
  let outer ← Program.forIn ⟨walk.index + 1⟩ "row" (← Program.ident "rows")
  let _ ← Program.forIn outer "cell" (← Program.ident "row")

def looping : Graph := (loopingSource.run Program.empty).2

/-- The two loops have four variables in the method around them. -/
theorem hygienic_looping : ∃ lowered tied report,
    (Lowering.run Program.root).run looping = (.ok 2, lowered) ∧
      (run Program.root 1).run lowered = (.ok report, tied) ∧
      ∃ (base : NodeId → Nat) (iterator counter : NodeId → NodeId),
        (∀ n ∈ [(⟨6⟩ : NodeId), ⟨9⟩], looping.size ≤ base n ∧ ∃ var host f,
          looping.name? n = some var ∧ Hosted tied Program.root host f ∧
            OwnVariables tied Program.root n var (base n) f (iterator n) (counter n)) ∧
        iterator ⟨6⟩ ≠ iterator ⟨9⟩ ∧ counter ⟨6⟩ ≠ counter ⟨9⟩ := by
  have hlooping : Parsed looping Program.root ∧ Composed looping Program.root ∧
      Unreserved looping Program.root ∧ ∀ n ∈ [(⟨6⟩ : NodeId), ⟨9⟩],
        n ∈ looping.reachable Program.root fun n => looping.kind n = .surface .forIn := by
    decide +kernel
  have hruns : ((Lowering.run Program.root).run looping).1 = .ok 2 ∧
      ((Lowering.run Program.root).run looping).2.size ≤ 2 ^ 32 ∧
      ((run Program.root 1).run ((Lowering.run Program.root).run looping).2).1 =
        .ok ⟨7, 0, 1, ⟨2, 1, 20⟩⟩ := by
    decide +kernel
  obtain ⟨hparsed, hcomposed, hunreserved, hloops⟩ := hlooping
  obtain ⟨hlower, hsmall, htie⟩ := hruns
  have hloop : ∀ n ∈ [(⟨6⟩ : NodeId), ⟨9⟩], Loop looping Program.root n := fun n hn => by
    obtain ⟨hbelow, hkind⟩ := mem_reachable.1 (hloops n hn)
    exact ⟨hbelow, of_decide_eq_true hkind⟩
  have houter := hloop ⟨6⟩ (by simp)
  have hinner := hloop ⟨9⟩ (by simp)
  obtain ⟨base, iterator, counter, hown, hapart⟩ := hygienic hparsed hcomposed hunreserved
    (Prod.fst_eq_iff.1 hlower) hsmall (Prod.fst_eq_iff.1 htie)
  obtain ⟨-, hiterators, hcounters⟩ := hapart ⟨6⟩ ⟨9⟩ houter hinner
  have hne : (⟨6⟩ : NodeId) ≠ ⟨9⟩ := by decide
  exact ⟨_, _, _, Prod.fst_eq_iff.1 hlower, Prod.fst_eq_iff.1 htie, base, iterator, counter,
    fun n hn => hown n (hloop n hn), mt hiterators hne, mt hcounters hne⟩

end Reference

end TypeFlow
