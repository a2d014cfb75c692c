import TypeFlow.Proofs.Reference.Rereading
import TypeFlow.Proofs.Scope.Tables
/-!
# Collecting scopes again

A second collection makes tables with the names of the first one (`Scopes.follows_collect`), since
it reads nothing that the first one has changed. But it hangs new locals below each function that
got some before, in place of those. `Scopes.Abreast` relates the two collections step by step. At
the end the nodes that the first one has made do not lie below the root any longer, and no other
node is lost (`Abreast.below_iff`).
-/

namespace TypeFlow

namespace Scopes

open TypeFlow.Graph Program

variable {g h c c' x y : Graph} {s s' : Scopes} {root host f cls item n k parent : NodeId}
  {name : String} {t t' : ScopeTable}

/-! ## Tables of the same names -/

/-- The hosts of the tables with the hosts around them and the names that they define. -/
def outline (s : Scopes) : List (NodeId × Option NodeId × List String) :=
  s.tables.map fun t => (t.1, t.2.parent?, t.2.defs.map Prod.fst)

theorem lookup_outline (s : Scopes) (k : NodeId) : s.outline.lookup k =
    (s.table? k).map fun t => (t.parent?, t.defs.map Prod.fst) := by
  unfold outline table?
  induction s.tables with
  | nil => rfl
  | cons t ts ih =>
    obtain ⟨host, t⟩ := t
    rw [List.map_cons, List.lookup_cons, List.lookup_cons, ih]
    cases k == host <;> rfl

theorem isSome_lookup (defs : Definitions) (name : String) :
    (defs.lookup name).isSome = decide (name ∈ defs.map Prod.fst) := by
  induction defs with
  | nil => rfl
  | cons d defs ih =>
    obtain ⟨key, node⟩ := d
    rw [lookup_cons]
    by_cases hn : name = key <;> simp [hn, ih]

/-- Whether a name is found depends on the names in the tables alone. -/
theorem isSome_lookupFrom (h : s'.outline = s.outline) (host : NodeId) (name : String) :
    (s'.lookupFrom host name).isSome = (s.lookupFrom host name).isSome := by
  have hlength : s'.tables.length = s.tables.length := by
    simpa [outline] using congrArg List.length h
  have hover : ∀ (hops : Nat) (host? : Option NodeId),
      (s'.lookupOver name hops host?).isSome = (s.lookupOver name hops host?).isSome := by
    intro hops
    induction hops with
    | zero => exact fun _ => rfl
    | succ hops ih =>
      rintro (_ | host)
      · rfl
      · have htable := (lookup_outline s' host).symm.trans (h ▸ lookup_outline s host)
        cases ht : s.table? host with
        | none =>
          have ht' : s'.table? host = none := by simpa [ht] using htable
          rw [lookupOver, lookupOver, ht, ht']
        | some t =>
          obtain ⟨t', ht', hsame⟩ : ∃ t', s'.table? host = some t' ∧
              (t'.parent?, t'.defs.map Prod.fst) = (t.parent?, t.defs.map Prod.fst) := by
            simpa [ht] using htable
          obtain ⟨hparent, hnames⟩ := Prod.mk.inj hsame
          have hget : (t'.get? name).isSome = (t.get? name).isSome := by
            rw [ScopeTable.get?, ScopeTable.get?, isSome_lookup, isSome_lookup, hnames]
          rw [lookupOver_of_table ht, lookupOver_of_table ht', Option.isSome_or, Option.isSome_or,
            hget, hparent, ih]
  rw [lookupFrom, lookupFrom, hlength, hover]

theorem outline_setTable (h : s'.outline = s.outline) (hparent : t'.parent? = t.parent?)
    (hnames : t'.defs.map Prod.fst = t.defs.map Prod.fst) (k : NodeId) :
    (s'.setTable k t').outline = (s.setTable k t).outline := by
  have hset : ∀ (s : Scopes) (t : ScopeTable), (s.setTable k t).outline =
      s.outline.filter (·.1 ≠ k) ++ [(k, t.parent?, t.defs.map Prod.fst)] := fun s t => by
    rw [outline, setTable, List.map_append, outline, List.filter_map]
    rfl
  rw [hset, hset, h, hparent, hnames]

theorem definitions_eq (h : s'.outline = s.outline) : s'.definitions = s.definitions := by
  have hfold : ∀ s : Scopes,
      s.definitions = s.outline.foldr (fun t count => t.2.2.length + count) 0 := fun s => by
    rw [definitions, outline, List.foldr_map]
    simp
  rw [hfold, hfold, h]

/-! ## Two collections abreast -/

/-- One collection started from `g` and another one from `h`, and both came equally far: their
tables have the same names, and each function of `g` got new locals in both or in none of them. -/
structure Abreast (g h : Graph) (s : Scopes) (x : Graph) (s' : Scopes) (y : Graph) : Prop where
  first : Sown g x
  second : Sown h y
  outline : s'.outline = s.outline
  functions : s'.functions = s.functions
  classes : s'.classes = s.classes
  locals : ∀ n, g.has n →
    (scopesOf x n = scopesOf g n ∧ scopesOf y n = scopesOf h n) ∨
      ∃ a b, scopesOf x n = [a] ∧ g.has a = false ∧ scopesOf y n = [b] ∧ h.has b = false

/-- No function is the body of a function. -/
def PlainBodies (g : Graph) : Prop :=
  ∀ f body, g.kind f = .decl .function → g.child? f .body = some body →
    g.kind body ≠ .decl .function

instance (g : Graph) : Decidable (PlainBodies g) :=
  decidable_of_iff (∀ i < g.size, g.kind ⟨i⟩ = .decl .function →
      ∀ body ∈ g.child? ⟨i⟩ .body, g.kind body ≠ .decl .function) <| by
    refine ⟨fun h f body hkind hbody => ?_, fun h i _ hkind body hbody => h _ _ hkind hbody⟩
    have hf : g.has f := has_of_kind hkind nofun
    exact h f.index (by simpa [has] using hf) hkind body hbody

/-- Functions and classes are collected; there is nothing to do for any other item. -/
theorem collectItem_eq (root : NodeId) (s : Scopes) (item : NodeId) : collectItem root s item = (do
    let g ← get
    if g.kind item = .decl .function then do
      let name ← Run.ofExcept (g.requireName item)
      collectFunction { s with functions := s.functions.declare name item } item root
    else if g.kind item = .decl .classDecl then do
      let name ← Run.ofExcept (g.requireName item)
      collectClass { s with classes := s.classes.declare name item } item root
    else return s) := by
  unfold collectItem
  congr 1
  funext g
  split
  · next h => rw [if_pos h]
  · next h => rw [if_neg (by rw [h]; nofun), if_pos h]
  · next h h' => rw [if_neg h, if_neg h']

namespace Abreast

theorem setTable (ha : Abreast g h s x s' y) (hparent : t'.parent? = t.parent?)
    (hnames : t'.defs.map Prod.fst = t.defs.map Prod.fst) (k : NodeId) :
    Abreast g h (s.setTable k t) x (s'.setTable k t') y :=
  { ha with outline := outline_setTable ha.outline hparent hnames k }

theorem declareFunction (ha : Abreast g h s x s' y) (name : String) (item : NodeId) :
    Abreast g h { s with functions := s.functions.declare name item } x
      { s' with functions := s'.functions.declare name item } y :=
  ⟨ha.first, ha.second, ha.outline, congrArg (·.declare name item) ha.functions, ha.classes,
    ha.locals⟩

theorem declareClass (ha : Abreast g h s x s' y) (name : String) (item : NodeId) :
    Abreast g h { s with classes := s.classes.declare name item } x
      { s' with classes := s'.classes.declare name item } y :=
  ⟨ha.first, ha.second, ha.outline, ha.functions, congrArg (·.declare name item) ha.classes,
    ha.locals⟩

variable (hg : g.WellKept) (hplain : PlainBodies g) (hgh : Rereads g h)
  (hone : ∀ n, g.has n → (scopesOf h n).length ≤ 1)
include hg hplain hgh hone

/-- Both collections add locals of the same names to a function. -/
theorem collectFunction (ha : Abreast g h s x s' y) (hf : g.has f)
    (hkind : g.kind f = .decl .function) (parent : NodeId) :
    Run.Follows (s.collectFunction f parent) x (s'.collectFunction f parent) y (Abreast g h) := by
  have hgx : Rereads g x := (Rereads.refl g).grows ha.first.toGrows
  have hgy : Rereads g y := hgh.grows ha.second.toGrows
  unfold Scopes.collectFunction
  refine Run.follows_get_bind <| Run.follows_ofExcept_bind ?_ fun params _ =>
    Run.follows_ofExcept_bind ?_ fun body hbody => Run.follows_lift_bind ?_
  · rw [hgx.namedMembers_eq hg hf, hgy.namedMembers_eq hg hf]
  · rw [requireChild, requireChild, hgx.child?_eq (r := .body) hf nofun nofun,
      hgy.child?_eq (r := .body) hf nofun nofun]
  · have hbody : g.child? f .body = some body := by
      rw [← hgx.child?_eq (r := .body) hf nofun nofun]
      exact requireChild_eq_ok.1 hbody
    have hhas : g.has body := hg.has_target (mem_of_child? hbody)
    have hnames : newNames (fun name => ((tableOf parent params).get? name).isSome ||
          (s'.lookupFrom parent name).isSome) (writtenNames y body) =
        newNames (fun name => ((tableOf parent params).get? name).isSome ||
          (s.lookupFrom parent name).isSome) (writtenNames x body) := by
      have hwritten := hplain f body hkind hbody
      rw [hgx.writtenNames_eq hg hhas hwritten, hgy.writtenNames_eq hg hhas hwritten]
      congr 1
      funext name
      rw [isSome_lookupFrom ha.outline]
    rw [hnames]
    generalize newNames _ _ = names
    have hfew : (scopesOf x f).length ≤ 1 ∧ (scopesOf y f).length ≤ 1 := by
      rcases ha.locals f hf with ⟨hx, hy⟩ | ⟨a, b, hx, -, hy, -⟩
      · exact ⟨hx ▸ length_scopesOf hg f, hy ▸ hone f hf⟩
      · simp [hx, hy]
    obtain ⟨hx, hxnames, hxscopes⟩ :=
      sown_addLocals ((hgx.kind f hf (.decl .function) rfl).2 hkind) hfew.1 names
    obtain ⟨hy, hynames, hyscopes⟩ :=
      sown_addLocals ((hgy.kind f hf (.decl .function) rfl).2 hkind) hfew.2 names
    have ha' : Abreast g h s ((addLocals f names).run x).2 s' ((addLocals f names).run y).2 := by
      refine ⟨ha.first.trans hx, ha.second.trans hy, ha.outline, ha.functions, ha.classes,
        fun n hn => ?_⟩
      rw [hxscopes n (hgx.has n hn), hyscopes n (hgy.has n hn)]
      split
      · exact Or.inr ⟨_, _, rfl, ha.first.not_has has_fresh, rfl, ha.second.not_has has_fresh⟩
      · exact ha.locals n hn
    refine Run.follows_pure (ha'.setTable ?_ ?_ f)
    · rfl
    · rw [List.map_append, List.map_append, hxnames, hynames]

theorem collectFunctions (parent : NodeId) : ∀ {ms : List NodeId} {s s' : Scopes} {x y : Graph},
    (∀ m ∈ ms, g.has m) → Abreast g h s x s' y →
      Run.Follows (collectFunctions parent s ms) x (collectFunctions parent s' ms) y (Abreast g h)
  | [], _, _, _, _, _, ha => Run.follows_pure ha
  | m :: ms, s, s', x, y, hms, ha => by
    obtain ⟨hm, hms⟩ := List.forall_mem_cons.1 hms
    have hx := ((Rereads.refl g).grows ha.first.toGrows).kind m hm (.decl .function) rfl
    have hy := (hgh.grows ha.second.toGrows).kind m hm (.decl .function) rfl
    rw [Scopes.collectFunctions, Scopes.collectFunctions]
    refine Run.follows_get_bind ?_
    by_cases hkind : g.kind m = .decl .function
    · rw [if_pos (hx.2 hkind), if_pos (hy.2 hkind)]
      exact (collectFunction hg hplain hgh hone ha hm hkind parent).bind fun _ _ _ _ ha' =>
        collectFunctions parent hms ha'
    · rw [if_neg (mt hx.1 hkind), if_neg (mt hy.1 hkind)]
      exact collectFunctions parent hms ha

theorem collectClass (ha : Abreast g h s x s' y) (hcls : g.has cls) (parent : NodeId) :
    Run.Follows (s.collectClass cls parent) x (s'.collectClass cls parent) y (Abreast g h) := by
  have hgx : Rereads g x := (Rereads.refl g).grows ha.first.toGrows
  have hgy : Rereads g y := hgh.grows ha.second.toGrows
  unfold Scopes.collectClass
  refine Run.follows_get_bind <| Run.follows_ofExcept_bind ?_ fun fields _ => ?_
  · rw [hgx.namedMembers_eq hg hcls, hgy.namedMembers_eq hg hcls]
  · rw [hgx.items_eq hcls, hgy.items_eq hcls]
    exact collectFunctions hg hplain hgh hone cls (fun m hm => hg.has_item hm)
      (ha.setTable rfl rfl cls)

theorem collectItem (ha : Abreast g h s x s' y) (hitem : g.has item) (root : NodeId) :
    Run.Follows (collectItem root s item) x (collectItem root s' item) y (Abreast g h) := by
  have hgx : Rereads g x := (Rereads.refl g).grows ha.first.toGrows
  have hgy : Rereads g y := hgh.grows ha.second.toGrows
  have hname : y.requireName item = x.requireName item := by
    rw [hgx.requireName_eq hitem, hgy.requireName_eq hitem]
  rw [collectItem_eq, collectItem_eq]
  refine Run.follows_get_bind ?_
  by_cases hkind : g.kind item = .decl .function
  · rw [if_pos ((hgx.kind item hitem (.decl .function) rfl).2 hkind),
      if_pos ((hgy.kind item hitem (.decl .function) rfl).2 hkind)]
    refine Run.follows_ofExcept_bind hname fun name _ => ?_
    exact (ha.declareFunction name item).collectFunction hg hplain hgh hone hitem hkind root
  · rw [if_neg (mt (hgx.kind item hitem (.decl .function) rfl).1 hkind),
      if_neg (mt (hgy.kind item hitem (.decl .function) rfl).1 hkind)]
    by_cases hclass : g.kind item = .decl .classDecl
    · rw [if_pos ((hgx.kind item hitem (.decl .classDecl) rfl).2 hclass),
        if_pos ((hgy.kind item hitem (.decl .classDecl) rfl).2 hclass)]
      refine Run.follows_ofExcept_bind hname fun name _ => ?_
      exact (ha.declareClass name item).collectClass hg hplain hgh hone hitem root
    · rw [if_neg (mt (hgx.kind item hitem (.decl .classDecl) rfl).1 hclass),
        if_neg (mt (hgy.kind item hitem (.decl .classDecl) rfl).1 hclass)]
      exact Run.follows_pure ha

end Abreast

/-- Where the first collection ends well, the second one does, and both come equally far. -/
theorem follows_collect (hg : g.WellKept) (hplain : PlainBodies g) (hgh : Rereads g h)
    (hone : ∀ n, g.has n → (scopesOf h n).length ≤ 1) (hroot : g.has root) :
    Run.Follows (collect root) g (collect root) h (Abreast g h) := by
  have hstart : Abreast g h (empty.setTable root ⟨[], none⟩) g (empty.setTable root ⟨[], none⟩) h :=
    ⟨.refl g, .refl h, rfl, rfl, rfl, fun _ _ => Or.inl ⟨rfl, rfl⟩⟩
  unfold collect
  refine Run.follows_get_bind ?_
  rw [hgh.items_eq hroot]
  exact Run.follows_foldlM (fun item hitem s x s' y ha =>
    ha.collectItem hg hplain hgh hone (hg.has_item hitem) root) hstart

/-! ## What lies below the root afterwards -/

theorem Sown.has_below (hgc : Sown g c) (hg : g.WellKept) (hroot : g.has root)
    (hn : c.Below root n) : c.has n := by
  cases hn with
  | root => exact hgc.has root hroot
  | child _ he _ => exact hgc.closed (fun _ _ he => hg.has_target he) _ _ he

section Below

variable (ha : Abreast g h s c s' c') (hgh : Rereads g h)
  (hout : ∀ n, (h.outgoing n).filter (·.role ≠ .ref) = (c.outgoing n).filter (·.role ≠ .ref))

theorem scopesOf_eq
    (hout : ∀ n, (h.outgoing n).filter (·.role ≠ .ref) = (c.outgoing n).filter (·.role ≠ .ref))
    (n : NodeId) : scopesOf h n = scopesOf c n := by
  have hsplit : ∀ es : List Edge,
      es.filter (·.role = .locals) = (es.filter (·.role ≠ .ref)).filter (·.role = .locals) := by
    intro es
    rw [List.filter_filter]
    refine List.filter_congr fun e _ => ?_
    by_cases hr : e.role = .locals <;> simp [hr]
  rw [scopesOf, scopesOf, hsplit, hout, ← hsplit]

theorem eq_locals_of_not_isFixed {e : Edge} (he : ¬g.isFixed n e) : e.role = .locals := by
  by_contra hr
  exact he (by simp [isFixed, hr])

include ha hgh hout

/-- What was there before the first collection still lies below the root after the second one. -/
theorem Abreast.below_of_has (hn : h.Below root n) (hold : g.has n) : c'.Below root n := by
  induction hn with
  | root => exact .root
  | @child n e hbelow he hs ih =>
    have hmem : e ∈ c.outgoing n := by
      have href : e.role ≠ .ref := ne_ref_of_isStructural hs
      have hmem : e ∈ (c.outgoing n).filter (·.role ≠ .ref) := by
        rw [← hout]
        exact List.mem_filter.2 ⟨he, by simpa using href⟩
      exact (List.mem_filter.1 hmem).1
    have hn : g.has n := by
      by_contra hn
      rw [(ha.first.inner n (by simpa using hn) e hmem).2] at hold
      cases hold
    refine (ih hn).child ?_ hs
    by_cases hfixed : g.isFixed n e
    · have hkept : e ∈ (c'.outgoing n).filter (h.isFixed n) := by
        rw [ha.second.outgoing n (hgh.has n hn)]
        exact List.mem_filter.2 ⟨he, hgh.isFixed_eq hn ▸ hfixed⟩
      exact (List.mem_filter.1 hkept).1
    · obtain ⟨r, d⟩ := e
      obtain rfl : r = .locals := eq_locals_of_not_isFixed hfixed
      refine mem_scopesOf.1 ?_
      rcases ha.locals n hn with ⟨-, hy⟩ | ⟨a, b, hx, ha, -, -⟩
      · rw [hy]
        exact mem_scopesOf.2 he
      · -- a new scope node was not there before
        have hd : d ∈ scopesOf c n := mem_scopesOf.2 hmem
        rw [hx, List.mem_singleton] at hd
        rw [hd, ha] at hold
        cases hold

variable (hg : g.WellKept)
include hg

/-- What lies below the root after the second collection is new, or it was there before the first
one and lay below the root between the two. -/
theorem Abreast.old_or_new (hroot : g.has root) (hn : c'.Below root n) :
    (g.has n ∧ h.Below root n) ∨ h.has n = false := by
  induction hn with
  | root => exact Or.inl ⟨hroot, .root⟩
  | @child n e _ he hs ih =>
    rcases ih with ⟨hn, hbelow⟩ | hn
    · by_cases hfixed : g.isFixed n e
      · have hmem : e ∈ (h.outgoing n).filter (h.isFixed n) := by
          rw [← ha.second.outgoing n (hgh.has n hn)]
          exact List.mem_filter.2 ⟨he, hgh.isFixed_eq hn ▸ hfixed⟩
        have hmem : e ∈ h.outgoing n := (List.mem_filter.1 hmem).1
        have href : e.role ≠ .ref := ne_ref_of_isStructural hs
        have hold : e ∈ (g.outgoing n).filter (isRead g n) := by
          rw [← hgh.outgoing n hn]
          exact List.mem_filter.2 ⟨hmem, by simp [isRead, href, hfixed]⟩
        exact Or.inl ⟨hg.has_target (List.mem_filter.1 hold).1, hbelow.child hmem hs⟩
      · obtain ⟨r, d⟩ := e
        obtain rfl : r = .locals := eq_locals_of_not_isFixed hfixed
        have hd : d ∈ scopesOf c' n := mem_scopesOf.2 he
        rcases ha.locals n hn with ⟨hx, hy⟩ | ⟨a, b, -, -, hy, hb⟩
        · rw [hy] at hd
          have hold : d ∈ scopesOf g n := by rwa [← hx, ← scopesOf_eq hout]
          exact Or.inl ⟨hg.has_target (mem_scopesOf.1 hold), hbelow.child (mem_scopesOf.1 hd) rfl⟩
        · rw [hy] at hd
          exact Or.inr (List.mem_singleton.1 hd ▸ hb)
    · exact Or.inr (ha.second.inner n hn e he).2

/-- Of the nodes between the two collections those that the first one has made are lost. -/
theorem Abreast.below_iff (hroot : g.has root) (hn : h.has n) :
    c'.Below root n ↔ g.has n ∧ h.Below root n := by
  refine ⟨fun h => (ha.old_or_new hgh hout hg hroot h).resolve_right ?_,
    fun h => ha.below_of_has hgh hout h.2 h.1⟩
  rw [hn]
  nofun

end Below


end Scopes

end TypeFlow
