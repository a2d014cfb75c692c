import Mathlib.Data.List.Find
import TypeFlow.Proofs.Scope.Members
/-!
# Locals that are hung into a program

All that collecting scopes does to a program is to hang new nodes into it (`Scopes.Sprouts`): a
scope node below a function without one, and definitions below a scope node. So an outlined program
stays one, and what was there reads as before. `addLocals_spec` says what becomes of one function.
-/

namespace TypeFlow

namespace Scopes

open TypeFlow.Graph Program

/-- A graph into which scope nodes and definitions of locals are hung. -/
inductive Sprouts (g : Graph) : Graph → Prop
  | refl : Sprouts g g
  | scope {c : Graph} {f : NodeId} (hc : Sprouts g c) (hkind : c.kind f = .decl .function)
    (hnone : c.child? f .locals = none) : Sprouts g (c.hang f .locals (.decl .scope) .none)
  | varDef {c : Graph} {scope : NodeId} {i : UInt32} (hc : Sprouts g c)
    (hkind : c.kind scope = .decl .scope) (hnew : g.has scope = false)
    (hnone : c.child? scope (.item i) = none) (name : String) :
    Sprouts g (c.hang scope (.item i) (.decl .varDef) (.str name))

variable {g c c' : Graph} {root host f body scope s n m d : NodeId} {names : List String}

/-- A graph goes on growing by new nodes, unless one takes a place that is fixed. -/
theorem grows_hang {r : Role} {k : NodeKind} {p : Payload} (hgc : Grows g c) (hs : c.has s)
    (hr : r ≠ .ref) (hfree : g.has s → g.isFixed s ⟨r, c.fresh⟩ = false) :
    Grows g (c.hang s r k p) where
  has n hn := by rw [has_hang, hgc.has n hn, Bool.true_or]
  kind n hn := by rw [kind_hang, if_neg (ne_fresh (hgc.has n hn)), hgc.kind n hn]
  payload n hn := by rw [payload_hang, if_neg (ne_fresh (hgc.has n hn)), hgc.payload n hn]
  outgoing n hn := by
    rw [outgoing_hang hs]
    split
    · next hns =>
      subst hns
      rw [List.filter_append, hgc.outgoing n hn,
        List.filter_cons_of_neg (by rw [hfree hn]; exact Bool.false_ne_true), List.filter_nil,
        List.append_nil]
    · exact hgc.outgoing n hn
  untied hg n e he := by
    rw [outgoing_hang hs] at he
    split at he
    · rcases List.mem_append.1 he with he | he
      · exact hgc.untied hg n e he
      · rw [List.mem_singleton.1 he]
        exact hr
    · exact hgc.untied hg n e he

namespace Sprouts

theorem grows (h : Sprouts g c) : Grows g c := by
  induction h with
  | refl => exact Grows.refl g
  | @scope c f _ hkind _ ih =>
    refine grows_hang ih (has_of_kind hkind (by decide)) (by rintro ⟨⟩) fun hf => ?_
    simp [isFixed, (ih.kind f hf).symm.trans hkind]
  | varDef _ hkind hnew _ _ ih =>
    refine grows_hang ih (has_of_kind hkind (by decide)) (by rintro ⟨⟩) fun hscope => ?_
    rw [hnew] at hscope
    cases hscope

theorem trans (h : Sprouts g c) (h' : Sprouts c c') : Sprouts g c' := by
  induction h' with
  | refl => exact h
  | scope _ hkind hnone ih => exact ih.scope hkind hnone
  | varDef _ hkind hnew hnone name ih =>
    refine ih.varDef hkind ?_ hnone name
    by_contra hscope
    simp [h.grows.has _ (by simpa using hscope)] at hnew

theorem outlined (h : Sprouts g c) (hg : Outlined g root) : Outlined c root := by
  induction h with
  | refl => exact hg
  | scope _ hkind hnone ih => exact ih.hang (has_of_kind hkind nofun) hnone rfl nofun rfl
  | varDef _ hkind _ hnone _ ih =>
    exact ih.hang (has_of_kind hkind nofun) hnone rfl (fun _ => hkind) rfl

/-- A node other than a function keeps its edges. -/
theorem outgoing_eq (h : Sprouts g c) (hn : g.has n) (hkind : g.kind n ≠ .decl .function) :
    c.outgoing n = g.outgoing n := by
  have hall : ∀ es : List Edge, es.filter (g.isFixed n) = es := fun es =>
    List.filter_eq_self.2 fun e _ => by simp [isFixed, hkind]
  rw [← hall (c.outgoing n), h.grows.outgoing n hn, hall]

/-- All that comes into reach are scopes and definitions of locals. -/
theorem below_cases (h : Sprouts g c) (hg : Outlined g root) (hn : c.Below root n) :
    g.Below root n ∨ c.kind n = .decl .scope ∨ c.kind n = .decl .varDef := by
  induction h with
  | refl => exact Or.inl hn
  | scope hc hkind _ ih =>
    rcases below_of_hang (has_of_kind hkind nofun) hn with hn | ⟨rfl, -⟩
    · rw [kind_hang, if_neg (ne_fresh ((hc.outlined hg).has_below hn))]
      exact ih hn
    · exact Or.inr (Or.inl (by rw [kind_hang, if_pos rfl]))
  | varDef hc hkind _ _ _ ih =>
    rcases below_of_hang (has_of_kind hkind nofun) hn with hn | ⟨rfl, -⟩
    · rw [kind_hang, if_neg (ne_fresh ((hc.outlined hg).has_below hn))]
      exact ih hn
    · exact Or.inr (Or.inr (by rw [kind_hang, if_pos rfl]))

theorem keeps_below (h : Sprouts g c) (hn : g.Below root n) : c.Below root n := by
  induction h with
  | refl => exact hn
  | scope _ hkind _ ih => exact below_hang (has_of_kind hkind nofun) ih
  | varDef _ hkind _ _ _ ih => exact below_hang (has_of_kind hkind nofun) ih

end Sprouts

/-! ## The locals of one function -/

/-- Definitions of names are hung below a new scope node that has some already. -/
theorem mapM_addLocal_spec (hnew : g.has s = false) : ∀ (names : List String) {c : Graph}
    {ns : List NodeId}, Sprouts g c → c.kind s = .decl .scope → c.outgoing s = places ns →
      ns.length + names.length ≤ 2 ^ 32 →
        ∃ defs c', (names.mapM (addLocal s)).run c = (defs, c') ∧ Sprouts g c' ∧
          (∀ n, c.has n → c'.kind n = c.kind n ∧ c'.payload n = c.payload n) ∧
          (∀ n, c'.child? n .locals = c.child? n .locals) ∧
          c'.outgoing s = places (ns ++ defs.map Prod.snd) ∧ defs.map Prod.fst = names ∧
          ∀ d ∈ defs, g.has d.2 = false ∧ c'.kind d.2 = .decl .varDef ∧ c'.name? d.2 = some d.1
  | [], c, ns, hc, _, hout, _ =>
    ⟨[], c, rfl, hc, fun _ _ => ⟨rfl, rfl⟩, fun _ => rfl, by simpa using hout, rfl, nofun⟩
  | name :: names, c, ns, hc, hkind, hout, hlength => by
    rw [List.length_cons] at hlength
    have hs : c.has s := has_of_kind hkind nofun
    have hindex := nextIndex_of_places hout (by omega)
    have hnone := child?_place hout (by omega)
    let c₁ := c.hang s (.item (.ofNat ns.length)) (.decl .varDef) (.str name)
    have hstep : (addLocal s name).run c = ((name, c.fresh), c₁) := by
      have hsame : (c.add (.decl .varDef) (.str name)).nextIndex s = c.nextIndex s := by
        simp [nextIndex]
      change ((name, c.fresh), (c.add (.decl .varDef) (.str name)).pushItem s c.fresh) = _
      rw [Graph.pushItem, hsame, hindex]
      rfl
    have hold : ∀ n, c.has n → c₁.kind n = c.kind n ∧ c₁.payload n = c.payload n := fun n hn => by
      rw [kind_hang, payload_hang, if_neg (ne_fresh hn), if_neg (ne_fresh hn)]
      exact ⟨rfl, rfl⟩
    have hout₁ : c₁.outgoing s = places (ns ++ [c.fresh]) := by
      rw [outgoing_hang hs, if_pos rfl, hout, places_concat]
    obtain ⟨defs, c', hrun, hc', hkeep, hchild, hplaces, hnames, hdefs⟩ :=
      mapM_addLocal_spec hnew names (hc.varDef hkind hnew hnone name)
        ((hold s hs).1.trans hkind) hout₁ (by simp; omega)
    have hfresh : c₁.has c.fresh := has_hang_fresh
    refine ⟨(name, c.fresh) :: defs, c', ?_, hc', fun n hn => ?_, fun n => ?_, ?_, ?_,
      List.forall_mem_cons.2 ⟨⟨?_, ?_, ?_⟩, hdefs⟩⟩
    · have hcons : ((name :: names).mapM (addLocal s)).run c =
          (((addLocal s name).run c).1 ::
              ((names.mapM (addLocal s)).run ((addLocal s name).run c).2).1,
            ((names.mapM (addLocal s)).run ((addLocal s name).run c).2).2) := by
        rw [List.mapM_cons]
        rfl
      rw [hcons, hstep, hrun]
    · have hn₁ : c₁.has n := by simp [c₁, has_hang, hn]
      exact ⟨(hkeep n hn₁).1.trans (hold n hn).1, (hkeep n hn₁).2.trans (hold n hn).2⟩
    · rw [hchild, child?_hang hs hnone, if_neg (by simp)]
    · rw [hplaces, List.map_cons, List.append_assoc, List.singleton_append]
    · rw [List.map_cons, hnames]
    · by_contra hg
      have hhas := hc.grows.has _ (by simpa using hg)
      rw [has_fresh] at hhas
      cases hhas
    · rw [(hkeep _ hfresh).1, kind_hang, if_pos rfl]
    · rw [name?, (hkeep _ hfresh).2, payload_hang, if_pos rfl]
      rfl

/-- A function without locals gets a definition for each name, in order. -/
theorem addLocals_spec (hkind : c.kind f = .decl .function) (hnone : c.child? f .locals = none)
    (hlength : names.length ≤ 2 ^ 32) :
    ∃ defs c', (addLocals f names).run c = (defs, c') ∧ Sprouts c c' ∧
      (∀ n, n ≠ f → c'.child? n .locals = c.child? n .locals) ∧
      locals c' f = defs.map Prod.snd ∧ defs.map Prod.fst = names ∧
      ∀ d ∈ defs, c.has d.2 = false ∧ c'.kind d.2 = .decl .varDef ∧ c'.name? d.2 = some d.1 := by
  cases names with
  | nil => exact ⟨[], c, rfl, .refl, fun _ _ => rfl, by simp [locals, hnone], rfl, nofun⟩
  | cons name names =>
    have hs : c.has f := has_of_kind hkind nofun
    have hset : (c.add (.decl .scope) .none).setChild f .locals c.fresh =
        c.hang f .locals (.decl .scope) .none := by
      have hfind : ((c.add (.decl .scope) .none).outgoing f).find? (·.role = .locals) = none := by
        rw [outgoing_add]
        exact Option.map_eq_none_iff.1 hnone
      rw [setChild, removeChild, hfind, hang]
    have hbare : (c.hang f .locals (.decl .scope) .none).outgoing c.fresh = places [] :=
      outgoing_hang_fresh hs
    obtain ⟨defs, c', hrun, hc', -, hchild, hplaces, hnames, hdefs⟩ :=
      mapM_addLocal_spec has_fresh (name :: names) (Sprouts.refl.scope hkind hnone)
        (by rw [kind_hang, if_pos rfl]) hbare (by simpa using hlength)
    refine ⟨defs, c', ?_, hc', fun n hn => ?_, ?_, hnames, hdefs⟩
    · rw [← hrun, ← hset]
      rfl
    · rw [hchild, child?_hang hs hnone, if_neg fun h => hn h.1]
    · have hscope : c'.child? f .locals = some c.fresh := by
        rw [hchild, child?_hang hs hnone, if_pos ⟨rfl, rfl⟩]
      have hdefsLength : (defs.map Prod.snd).length ≤ 2 ^ 32 := by
        have hsame : defs.length = (name :: names).length := by rw [← hnames, List.length_map]
        rw [List.length_map, hsame]
        exact hlength
      rw [locals, hscope]
      exact items_of_places hplaces hdefsLength

/-- The definitions that are made are the locals that a function declares. -/
theorem Declares.of_made {defs : Definitions} (hgc : Grows g c)
    (hlocals : locals c' f = defs.map Prod.snd) (hnames : defs.map Prod.fst = names)
    (hdefs : ∀ d ∈ defs,
      c.has d.2 = false ∧ c'.kind d.2 = .decl .varDef ∧ c'.name? d.2 = some d.1) :
    Declares g c' f names := by
  have hmade : ∀ d ∈ locals c' f, ∃ e ∈ defs, e.2 = d := fun d hd =>
    List.mem_map.1 (hlocals ▸ hd)
  refine ⟨?_, fun d hd => ?_, fun d hd => ?_⟩
  · rw [hlocals, ← hnames, List.map_map, List.map_map]
    exact List.map_congr_left fun d hd => (hdefs d hd).2.2
  · obtain ⟨e, he, rfl⟩ := hmade d hd
    exact (hdefs e he).2.1
  · obtain ⟨e, he, rfl⟩ := hmade d hd
    by_contra hold
    have hhas := hgc.has e.2 (by simpa using hold)
    rw [(hdefs e he).1] at hhas
    cases hhas

/-! ## What reads as before -/

section Grows

theorem name?_eq (hgc : Grows g c) (hn : g.has n) : c.name? n = g.name? n := by
  rw [name?, name?, hgc.payload n hn]

theorem member?_eq (hgc : Grows g c) (hg : g.WellKept) (hn : g.has n) (kind : DeclKind)
    (name : String) : member? c n kind name = member? g n kind name := by
  rw [member?, member?, hgc.items_eq hn]
  refine List.find?_congr fun m hm => ?_
  rw [hgc.kind m (hg.has_item hm), name?_eq hgc (hg.has_item hm)]

theorem hosted (hgc : Grows g c) (hg : Outlined g root) (hf : Hosted g root host f) :
    Hosted c root host f := by
  cases hf with
  | program hitem hkind =>
    exact .program (by rwa [hgc.items_eq hg.has])
      ((hgc.kind f (has_of_kind hkind nofun)).trans hkind)
  | method hcls hclass hitem hkind =>
    have hhas : g.has host := has_of_kind hclass nofun
    exact .method (by rwa [hgc.items_eq hg.has]) ((hgc.kind host hhas).trans hclass)
      (by rwa [hgc.items_eq hhas]) ((hgc.kind f (has_of_kind hkind nofun)).trans hkind)

variable (hcc : Grows c c') (hc : c.WellKept)
  (hchild : c'.child? f .locals = c.child? f .locals)
include hcc hc hchild

theorem locals_eq : locals c' f = locals c f ∧ ∀ d ∈ locals c f, c.has d := by
  unfold locals
  rw [hchild]
  cases hscope : c.child? f .locals with
  | none => exact ⟨rfl, nofun⟩
  | some scope =>
    exact ⟨hcc.items_eq (hc.has_target (mem_of_child? hscope)), fun d hd => hc.has_item hd⟩

theorem local?_eq (name : String) : local? c' f name = local? c f name := by
  obtain ⟨hlocals, hhas⟩ := locals_eq hcc hc hchild
  rw [local?, local?, hlocals]
  exact List.find?_congr fun d hd => by rw [name?_eq hcc (hhas d hd)]

theorem Declares.mono (h : Declares g c f names) : Declares g c' f names := by
  obtain ⟨hlocals, hhas⟩ := locals_eq hcc hc hchild
  refine ⟨?_, fun d hd => ?_, fun d hd => ?_⟩
  · rw [hlocals, ← h.names]
    exact List.map_congr_left fun d hd => name?_eq hcc (hhas d hd)
  · rw [hlocals] at hd
    rw [hcc.kind d (hhas d hd), h.kind d hd]
  · exact h.isNew d (hlocals ▸ hd)

end Grows

/-! ## The names that a body writes -/

/-- Below the body of a function no other host stands, so that a search there is not cut off, and
new nodes are not met. -/
theorem writtenNames_eq (hc : Sprouts g c) (hg : Outlined g root) (hf : Hosted g root host f)
    (hbody : g.child? f .body = some body) : writtenNames c body = targetNames g f := by
  have hparents := hg.parents_of_child? hf.below hbody rfl
  have hbelow : g.Below f body := Below.root.of_child? hbody rfl
  have hinner : ∀ n, g.Below body n → (g.kind n).isScopeHost = false := fun n hn =>
    hg.not_host_below hf (hbelow.trans hn) fun hnf =>
      hg.not_below_of_parents hf.below (hf.below.trans hbelow) hparents (hnf ▸ hn)
  have hhas : ∀ n, g.Below body n → g.has n := fun n hn =>
    hg.has_below (hf.below.trans (hbelow.trans hn))
  have hout : ∀ n, g.Below body n → c.outgoing n = g.outgoing n := fun n hn =>
    hc.outgoing_eq (hhas n hn) fun hkind => by simpa [hkind, NodeKind.isScopeHost] using hinner n hn
  let search : Search := { Search.down body with prune := fun n => (c.kind n).isScopeHost }
  have hnext : ∀ n, g.Below body n → c.below search n = g.below (.down body) n := fun n hn => by
    have hexpands : search.expands n = true := by
      simp [search, Search.expands, hc.grows.kind n (hhas n hn), hinner n hn]
    have hexpands' : (Search.down body).expands n = true := by simp [Search.expands, Search.down]
    rw [below, below, hexpands, hexpands', hout n hn]
  have hvisits : c.visits search = g.visits (.down body) :=
    (walk_visits_down rfl rfl).functional <|
      (walk_visits body).congr (P := g.Below body)
        (fun n hn m hm => by
          obtain ⟨e, he, hs, rfl⟩ := mem_below_down.1 hm
          exact hn.child he hs) hnext fun n hn => List.mem_singleton.1 hn ▸ .root
  have hstmts : (c.collect search fun n => isWrite (c.kind n)) =
      g.collect (.down body) fun n => isWrite (g.kind n) := by
    rw [Graph.collect, Graph.collect, hvisits]
    exact List.filter_congr fun n hn => by
      rw [hc.grows.kind n (hhas n (mem_visits_down.1 hn))]
  rw [targetNames, hbody]
  change (c.collect search fun n => isWrite (c.kind n)).filterMap (writtenName? c) = _
  rw [hstmts]
  refine List.filterMap_congr fun n hn => ?_
  have hn : g.Below body n := mem_visits_down.1 (List.mem_filter.1 hn).1
  have hchild : c.child? n .target = g.child? n .target := by rw [child?, child?, hout n hn]
  rw [writtenName?, writtenName?, hchild]
  cases htarget : g.child? n .target with
  | none => rfl
  | some target =>
    have hhas' := hhas target (hn.of_child? htarget rfl)
    simp only [hc.grows.kind target hhas', name?_eq hc.grows hhas']

end Scopes

end TypeFlow
