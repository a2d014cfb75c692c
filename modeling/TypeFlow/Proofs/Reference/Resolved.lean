import TypeFlow.Proofs.Program.Lowered
import TypeFlow.Proofs.Reference.Scoping
/-!
# Tied programs

Tying the references of a lowered program makes a resolved one (`Reference.resolved_of_run`): new
locals hang where they fit, an answer makes of a kind only what stands where it stood, and whatever
a node is tied to lies below the root (`Scopes.Stage.below_of_answer`).
-/

namespace TypeFlow

open TypeFlow.Graph Program

namespace Scopes

variable {s : Scopes} {g c : Graph} {root n d k : NodeId} {name : String} {t : ScopeTable}

/-- Collecting scopes keeps the form of a program. -/
theorem Sprouts.formed (h : Sprouts g c) (hg : Outlined g root) (hform : Formed g root) :
    Formed c root := by
  induction h with
  | refl => exact hform
  | scope hc hkind hnone ih =>
    exact ih.hang (hc.outlined hg).toRooted (has_of_kind hkind (by decide)) hnone
      (by rw [hkind]; rfl) rfl rfl (by decide)
  | varDef hc hkind _ hnone _ ih =>
    exact ih.hang (hc.outlined hg).toRooted (has_of_kind hkind (by decide)) hnone
      (by rw [hkind]; rfl) rfl rfl (by decide)

/-! ## Where definitions lie -/

theorem below_of_mem_locals {f : NodeId} (hf : c.Below root f) (hd : d ∈ locals c f) :
    c.Below root d := by
  obtain ⟨scope, hscope, hd⟩ := mem_locals.1 hd
  exact (hf.of_child? hscope rfl).of_mem_items hd

section Below

variable (hs : Stage g root (Listed g root (g.items root)) s c) (hg : Outlined g root)
include hs hg

/-- What a table defines is a parameter or a field of its host, or else a new local of it. -/
theorem Stage.member_or_local (ht : s.table? k = some t) (hd : t.get? name = some d) :
    g.Below root k ∧ ((∃ kind, kind ≠ .varDef ∧ member? g k kind name = some d) ∨
      local? c k name = some d ∧ c.kind d = .decl .varDef ∧ g.has d = false) := by
  have hfunction : ∀ {host}, Hosted g root host k → g.Below root k ∧
      ((∃ kind, kind ≠ .varDef ∧ member? g k kind name = some d) ∨
        local? c k name = some d ∧ c.kind d = .decl .varDef ∧ g.has d = false) := fun hf => by
    obtain ⟨-, hdeclares, hget⟩ := hs.function _ _ hf t ht
    rw [hget] at hd
    rcases Option.or_eq_some_iff.1 hd with hd | ⟨-, hd⟩
    · exact ⟨hf.below, Or.inl ⟨.param, nofun, hd⟩⟩
    · have hmem := (mem_of_local? hd).1
      exact ⟨hf.below, Or.inr ⟨hd, hdeclares.kind d hmem, hdeclares.isNew d hmem⟩⟩
  rcases (hs.tabled k).1 (by rw [ht]; rfl) with rfl | hitem | ⟨cls, hcls, hclass, hmem, hkind⟩
  · obtain rfl := Option.some.inj (hs.program.symm.trans ht)
    cases hd
  · rcases hg.items k hitem with hkind | hkind
    · exact hfunction (.program hitem hkind)
    · rw [(hs.classDecl k hitem hkind t ht).2] at hd
      exact ⟨Below.root.of_mem_items hitem, Or.inl ⟨.field, nofun, hd⟩⟩
  · exact hfunction (.method hcls hclass hmem hkind)

/-- What a table defines lies below the root. -/
theorem Stage.below_of_get? (ht : s.table? k = some t) (hd : t.get? name = some d) :
    c.Below root d := by
  obtain ⟨hk, ⟨kind, -, hd⟩ | ⟨hd, -⟩⟩ := hs.member_or_local hg ht hd
  · exact hs.sprouts.keeps_below (hk.of_mem_items (mem_of_member? hd).1)
  · exact below_of_mem_locals (hs.sprouts.keeps_below hk) (mem_of_local? hd).1

/-- A table defines a name by a node of the name. -/
theorem Stage.name?_of_get? (ht : s.table? k = some t) (hd : t.get? name = some d) :
    c.name? d = some name := by
  obtain ⟨hk, ⟨kind, -, hd⟩ | ⟨hd, -⟩⟩ := hs.member_or_local hg ht hd
  · obtain ⟨hmem, -, hname⟩ := mem_of_member? hd
    rw [name?_eq hs.sprouts.grows (hg.has_below (hk.of_mem_items hmem)), hname]
  · exact (mem_of_local? hd).2

theorem Stage.below_of_lookup? {h : Graph} (hd : s.lookup? h n name = some d) : c.Below root d := by
  obtain ⟨host, t, ht, hd⟩ := exists_table_of_lookup? hd
  exact hs.below_of_get? hg ht hd

/-- What a node is tied to lies below the root. -/
theorem Stage.below_of_answer (hsound : s.Sound c root) {kind : NodeKind}
    (ha : Reference.Answer s c n kind (some d)) : c.Below root d := by
  cases ha with
  | ident _ _ hd =>
    rcases Option.or_eq_some_iff.1 hd with hd | ⟨-, hd⟩
    · exact hs.below_of_lookup? hg hd
    · exact Below.root.of_mem_items (hsound.function hd).1
  | ownField _ hd =>
    obtain ⟨cls, -, hd⟩ := Option.bind_eq_some_iff.1 hd
    obtain ⟨t, ht, hd⟩ := Option.bind_eq_some_iff.1 hd
    exact hs.below_of_get? hg ht hd
  | dynCall _ hd => exact hs.below_of_lookup? hg hd
  | call _ hd => exact Below.root.of_mem_items (hsound.function hd).1
  | objectInit _ hd | named _ hd => exact Below.root.of_mem_items (hsound.class hd).1

end Below

end Scopes

namespace Reference

open Scopes

variable {s : Scopes} {g c h : Graph} {root n d : NodeId} {k k' m m' : NodeKind} {r : Role}

/-! ## What answers make of kinds -/

/-- What an answer may make of a kind. -/
inductive Recast : NodeKind → NodeKind → Prop
  | same (k : NodeKind) : Recast k k
  | sysCall : Recast (.expr .call) (.expr .sysCall)
  | dynCall : Recast (.expr .call) (.expr .dynCall)
  | objectInit : Recast (.expr .call) (.expr .objectInit)
  | base (b : BaseType) : Recast (.type .named) (.type (.base b))
  | dynamic : Recast (.type .named) (.type .dynamic)

theorem Answer.recast {kind : NodeKind} {d? : Option NodeId} (ha : Answer s c n kind d?) :
    Recast (c.kind n) kind := by
  cases ha with
  | ident hk | ownField hk | call hk | named hk =>
    rw [hk]
    exact .same _
  | sysCall hk => exact hk ▸ .sysCall
  | dynCall hk => exact hk ▸ .dynCall
  | objectInit hk => exact hk ▸ .objectInit
  | base hk b => exact hk ▸ .base b
  | dynamic hk => exact hk ▸ .dynamic

theorem Linked.recast (hl : Linked s c h) (n : NodeId) : Recast (c.kind n) (h.kind n) := by
  rcases hl.answer n with ⟨hkind, -⟩ | ha
  · rw [hkind]
    exact .same _
  · exact ha.recast

/-- Any value may stand where a call stands, and any type where one is named. -/
theorem Recast.fits_target (hm : Recast m m') (h : Program.fits k r m) : Program.fits k r m' := by
  cases hm with
  | same => exact h
  | sysCall | dynCall | objectInit => exact fits_of_isValue h rfl rfl
  | base | dynamic => exact heldBy_of_fits h _ rfl

/-- All sorts of calls hold the same, and neither a named type nor what it becomes holds
anything. -/
theorem Recast.fits_source (hk : Recast k k') (h : Program.fits k r m) : Program.fits k' r m := by
  cases hk with
  | same => exact h
  | sysCall | dynCall | objectInit => cases r <;> exact h
  | base | dynamic => cases r <;> cases h

/-- An answer asks for no other parts than ties. -/
theorem Recast.required (hk : Recast k k') (hr : r ∈ Program.required k') (href : r ≠ .ref) :
    r ∈ Program.required k := by
  cases hk with
  | same => exact hr
  | sysCall | dynCall | base | dynamic => cases hr
  | objectInit => exact absurd (List.mem_singleton.1 hr) href

/-! ## The tied program -/

theorem Answer.refersTo {kind : NodeKind} (hs : s.Sound c root) (ha : Answer s c n kind (some d)) :
    Program.refersTo kind (c.kind d) := by
  cases ha with
  | ident _ _ hd =>
    rcases Option.or_eq_some_iff.1 hd with hd | ⟨-, hd⟩
    · simp [Program.refersTo, hs.isVariable_of_lookup? hd]
    · simp [Program.refersTo, (hs.function hd).2]
  | ownField _ hd =>
    obtain ⟨-, -, -, hfield⟩ := hs.ownField hd
    simp [Program.refersTo, hfield]
  | dynCall _ hd => exact hs.isVariable_of_lookup? hd
  | call _ hd => simp [Program.refersTo, (hs.function hd).2]
  | objectInit _ hd | named _ hd => simp [Program.refersTo, (hs.class hd).2]

/-- What is referred to keeps its kind. -/
theorem isSteady_of_refersTo (h : Program.refersTo k m) : isSteady m := by
  cases m with
  | decl m => rfl
  | _ =>
    unfold Program.refersTo at h
    split at h <;> simp [isVariable] at h

section Linked

variable (hl : Linked s c h)
include hl

theorem Linked.fits (hform : Formed c root) (hn : c.Below root n) {e : Edge}
    (he : e ∈ h.outgoing n) (hr : e.role.isStructural) :
    Program.fits (h.kind n) e.role (h.kind e.node) :=
  (hl.recast e.node).fits_target
    ((hl.recast n).fits_source (hform.fits n hn e ((hl.retied.mem_outgoing_iff hr n).1 he) hr))

/-- A settled node has its tie, if it has to have one. -/
theorem Linked.complete (hform : Formed c root) (hn : c.Below root n)
    (hsettled : Settled c h root n) (hr : r ∈ Program.required (h.kind n)) : h.hasChild n r := by
  by_cases href : r = .ref
  · subst href
    have htied : ∃ d, h.child? n .ref = some d := by
      generalize hk : h.kind n = k at hr
      unfold Program.required at hr
      split at hr <;> simp at hr
      · exact (hsettled.ident hk).imp fun d hd => hd.1
      · exact (hsettled.call hk).imp fun d hd => hd.1
      · refine (hsettled.objectInit ?_ hk).imp fun d hd => hd.1
        have hrecast := hl.recast n
        rw [hk] at hrecast
        generalize hck : c.kind n = kc at hrecast
        cases hrecast with
        | same => exact absurd hck (hform.calls n hn)
        | objectInit => rfl
      · exact (hsettled.named hk).imp fun d hd => hd.1
    exact Option.isSome_iff_exists.2 htied
  · rw [Graph.hasChild, hl.child?_eq href]
    exact hform.complete n hn r ((hl.recast n).required hr href) href

theorem Linked.tied (hs : Stage g root (Listed g root (g.items root)) s c) (hg : Outlined g root)
    (hsound : s.Sound c root) (hd : h.child? n .ref = some d) :
    h.Below root d ∧ Program.refersTo (h.kind n) (h.kind d) := by
  have ha : Answer s c n (h.kind n) (some d) := by
    rcases hl.answer n with ⟨-, hnone⟩ | ha
    · cases hd.symm.trans hnone
    · rwa [hd] at ha
  have hrefers := ha.refersTo hsound
  rw [(hl.kind_iff (isSteady_of_refersTo hrefers) d).2 rfl]
  exact ⟨(hl.below_iff root).2 (hs.below_of_answer hg hsound ha), hrefers⟩

end Linked

/-- Where all ties lead to nodes of the graph, firings keep it in order. -/
theorem wellKept_of_fixpoint (hc : c.Untied) (hkept : c.WellKept)
    (hhas : ∀ n kind d, Answer s c n kind (some d) → c.has d) {nodes : List NodeId} {ceiling : Nat}
    {stats : Stats}
    (hrun : (Rule.fixpoint Graph.commit (rules s) nodes ceiling).run c = (.ok stats, h)) :
    h.WellKept := by
  refine (Rule.invariant_of_fixpoint (I := fun h => Linked s c h ∧ h.WellKept)
    (fun r hr n _ t t' ht hfires => ?_) ⟨linked_refl hc, hkept⟩ hrun).2
  refine ⟨((firesOnce_rules hc).step r hr n t t' ht.1 hfires).1, ?_⟩
  obtain ⟨p, hfire, hcommit⟩ := hfires
  obtain ⟨kind, d?, k, ha, hm, hmarks⟩ := marks_of_fire? hc ht.1 hr hfire
  obtain rfl : k = t' := by
    rw [hmarks] at hcommit
    exact (Run.outcome_eq.1 hcommit).2
  exact hm.kept ht.2 fun d hd => (ht.1.has_eq d).trans (hhas n kind d (hd ▸ ha))

/-- A run that ends well makes of a lowered program a resolved one, with all its nodes settled. -/
theorem resolved_of_run (hg : Lowered g root) {ceiling : Nat} {report : Report}
    (hrun : (run root ceiling).run g = (.ok report, h)) :
    Resolved h root ∧ ∀ n, h.Below root n → Settled g h root n := by
  obtain ⟨s, c, hcollect, hs, -⟩ := yields_collect hg.toUnscoped
  have hgc := hs.sprouts.grows
  have hsound : s.Sound c root := ((Run.keeps_iff.1 (keeps_collect g root)).1 s c hcollect).2
  have hc : Outlined c root := hs.sprouts.outlined hg.toOutlined
  have hform : Formed c root := hs.sprouts.formed hg.toOutlined hg.toFormed
  obtain ⟨stats, hfix, hcheck⟩ := fixpoint_of_run hcollect hrun
  have huntied : c.Untied := hgc.untied hg.untied
  have hl : Linked s c h := linked_of_fixpoint huntied hfix
  have hbelow : ∀ n, h.Below root n → c.Below root n := fun n => (hl.below_iff root).1
  have hsettled : ∀ n, h.Below root n → Settled c h root n := fun n hn =>
    hl.settled hsound
      (fun r hr => Rule.quiet_of_fixpoint hfix r hr n (mem_reachable.2 ⟨hbelow n hn, rfl⟩))
      (resolved_of_checkResolved hcheck hn)
  refine ⟨{
    kept := wellKept_of_fixpoint huntied hc.kept
      (fun n kind d ha => hc.has_below (hs.below_of_answer hg.toOutlined hsound ha)) hfix
    program := (hl.kind_iff rfl root).2 hc.program
    top := (hl.parents root).trans hc.top
    tree := fun n hn => hl.parents n ▸ hc.tree n (hbelow n hn)
    fits := fun n hn e he hr => hl.fits hform (hbelow n hn) he hr
    complete := fun n hn r hr => hl.complete hform (hbelow n hn) (hsettled n hn) hr
    named := fun n hn hname => ?_
    tied := fun n hn d hd => hl.tied hs hg.toOutlined hsound hd }, fun n hn =>
      (hsettled n hn).of_grows hgc⟩
  have hsteady : isSteady (h.kind n) := by
    unfold isNamed at hname
    split at hname <;> simp_all [isSteady]
  rw [hl.name?_eq]
  refine hform.reads n (hbelow n hn) ?_
  rwa [(hl.kind_iff hsteady n).1 rfl]

end Reference

end TypeFlow
