import TypeFlow.Proofs.Reference.Resolution
import TypeFlow.Proofs.Scope.Tables
/-!
# Scoping

The first write of a name in a function declares it. Collecting scopes gives every function one
local for each name that its body writes and that nothing around it defines, and tying references
then leads each identifier below a function to the definition that the function has of its name, or
else to the field of its class, or else to the function of the program (`Reference.scoping`). The
two parts look names up in different ways; that they agree is what keeps a written name from being
unknown.
-/

namespace TypeFlow

open TypeFlow.Graph Program

namespace Scopes

variable {s : Scopes} {g c h : Graph} {root host f n d k : NodeId} {name : String}

/-- What a name stands for in a function: its parameter or else its local of the name, or else a
field of the host around it, or else a function of the program. -/
def meant? (g : Graph) (root host f : NodeId) (name : String) : Option NodeId :=
  (((member? g f .param name).or (local? g f name)).or (member? g host .field name)).or
    (member? g root .function name)

/-- The definitions that a host holds. -/
def Holds (g : Graph) (host d : NodeId) : Prop := d ∈ g.items host ∨ d ∈ locals g host

/-- An identifier that a statement in the body of a function writes. -/
def Written (g : Graph) (root n : NodeId) : Prop :=
  ∃ host f body stmt, Hosted g root host f ∧ g.child? f .body = some body ∧ g.Below body stmt ∧
    isWrite (g.kind stmt) ∧ g.child? stmt .target = some n ∧ g.kind n = .expr .ident

/-! ## The definition that is meant -/

theorem mem_locals :
    d ∈ locals g f ↔ ∃ scope, g.child? f .locals = some scope ∧ d ∈ g.items scope := by
  unfold locals
  cases g.child? f .locals <;> simp

/-- What a name stands for in a function is an item of the function, of its host or of the program,
or a local of the function. -/
theorem mem_of_meant? (hd : meant? g root host f name = some d) :
    d ∈ locals g f ∨ ∃ m, (m = f ∨ m = host ∨ m = root) ∧ d ∈ g.items m := by
  unfold meant? at hd
  rcases Option.or_eq_some_iff.1 hd with hd | ⟨-, hd⟩
  · rcases Option.or_eq_some_iff.1 hd with hd | ⟨-, hd⟩
    · rcases Option.or_eq_some_iff.1 hd with hd | ⟨-, hd⟩
      · exact Or.inr ⟨f, Or.inl rfl, (mem_of_member? hd).1⟩
      · exact Or.inl (mem_of_local? hd).1
    · exact Or.inr ⟨host, Or.inr (Or.inl rfl), (mem_of_member? hd).1⟩
  · exact Or.inr ⟨root, Or.inr (Or.inr rfl), (mem_of_member? hd).1⟩

/-- What a name stands for in a function is held by no other host than those in which it is looked
up. -/
theorem holder_of_meant? (hc : Outlined c root) (hf : Hosted c root host f)
    (hd : meant? c root host f name = some d) (hk : c.Below root k) (hhost : (c.kind k).isScopeHost)
    (hkd : Holds c k d) : k = f ∨ k = host ∨ k = root := by
  have hscope : ∀ {m scope}, c.Below root m → c.child? m .locals = some scope →
      c.parents scope = [m] := fun hm hs => hc.parents_of_child? hm hs rfl
  have hitem : ∀ {m x}, c.Below root m → x ∈ c.items m → c.parents x = [m] :=
    hc.parents_of_mem_items
  have honly : ∀ {x a b : NodeId}, c.parents x = [a] → c.parents x = [b] → a = b :=
    fun ha hb => List.singleton_inj.1 (ha.symm.trans hb)
  rcases mem_of_meant? hd with hlocal | ⟨m, hm, hdm⟩
  · obtain ⟨scope, hchild, hdscope⟩ := mem_locals.1 hlocal
    have hbelow : c.Below root scope := hf.below.of_child? hchild rfl
    have hparent := hscope hf.below hchild
    rcases hkd with hkd | hkd
    · -- the holder would be the scope node, which is no host
      obtain rfl := honly (hitem hbelow hdscope) (hitem hk hkd)
      have hne : scope ≠ f := by
        rintro rfl
        exact hc.host_ne hf (honly (hc.parents_of_hosted hf) hparent)
      rw [hc.not_host_below hf (Below.root.of_child? hchild rfl) hne] at hhost
      cases hhost
    · obtain ⟨scope', hchild', hdscope'⟩ := mem_locals.1 hkd
      have hbelow' : c.Below root scope' := hk.of_child? hchild' rfl
      obtain rfl := honly (hitem hbelow hdscope) (hitem hbelow' hdscope')
      exact Or.inl (honly (hscope hk hchild') hparent)
  · have hbelow : c.Below root m := by
      rcases hm with rfl | rfl | rfl
      · exact hf.below
      · exact hf.below_host
      · exact .root
    rcases hkd with hkd | hkd
    · rwa [honly (hitem hk hkd) (hitem hbelow hdm)]
    · obtain ⟨scope, hchild, hdscope⟩ := mem_locals.1 hkd
      obtain rfl := honly (hitem (hk.of_child? hchild rfl) hdscope) (hitem hbelow hdm)
      have hparent := hscope hk hchild
      rcases hm with rfl | rfl | rfl
      · exact Or.inr (Or.inl (honly hparent (hc.parents_of_hosted hf)))
      · rcases hf.root_or_class with rfl | ⟨hmem, -⟩
        · cases hc.top.symm.trans hparent
        · exact Or.inr (Or.inr (honly hparent (hitem .root hmem)))
      · cases hc.top.symm.trans hparent

theorem mem_targetNames {body stmt : NodeId} (hbody : g.child? f .body = some body)
    (hstmt : g.Below body stmt) (hwrite : isWrite (g.kind stmt))
    (hname : writtenName? g stmt = some name) : name ∈ targetNames g f := by
  rw [targetNames, hbody]
  exact List.mem_filterMap.2
    ⟨stmt, List.mem_filter.2 ⟨mem_visits_down.2 hstmt, hwrite⟩, hname⟩

/-! ## Tables and graph agree -/

theorem listed_of_hosted (hf : Hosted g root host f) :
    Listed g root (g.items root) host ∧ Listed g root (g.items root) f := by
  cases hf with
  | program hitem => exact ⟨Or.inl rfl, Or.inr (Or.inl hitem)⟩
  | method hcls hclass hitem hkind =>
    exact ⟨Or.inr (Or.inl hcls), Or.inr (Or.inr ⟨_, hcls, hclass, hitem, hkind⟩)⟩

section Collected

variable (hs : Stage g root (Listed g root (g.items root)) s c) (hf : Hosted g root host f)
include hs hf

theorem declares_of_collected : Declares g c f (localNames g host f) := by
  obtain ⟨t, ht⟩ := Option.isSome_iff_exists.1 ((hs.tabled f).2 (listed_of_hosted hf).2)
  exact (hs.function host f hf t ht).2.1

variable (hg : Unscoped g root)
include hg

/-- From below a function, the tables lead to what the name stands for there. -/
theorem lookup?_eq_meant? (hfunctions : ∀ name, s.function? name = member? g root .function name)
    (hn : c.Below f n) (hne : n ≠ f) (name : String) :
    (s.lookup? c n name).or (s.function? name) = meant? c root host f name := by
  have hgc := hs.sprouts.grows
  have hc : Outlined c root := hs.sprouts.outlined hg.toOutlined
  have hnearest := hc.nearest_host (hosted hgc hg.toOutlined hf) hn hne
  have hlookup : s.lookup? c n name = s.lookupFrom f name := by
    rw [lookup?, hnearest]
  rw [hlookup, hs.lookupFrom_function hg.toOutlined hf (listed_of_hosted hf).1
    (listed_of_hosted hf).2, hfunctions, meant?, member?_eq hgc hg.kept (hg.has_below hf.below),
    member?_eq hgc hg.kept (hg.has_below hf.below_host), member?_eq hgc hg.kept hg.has]

/-- A name that is written in a function stands for something there. -/
theorem exists_meant? {body stmt : NodeId} (hbody : g.child? f .body = some body)
    (hstmt : g.Below body stmt) (hwrite : isWrite (g.kind stmt))
    (hname : writtenName? g stmt = some name) : ∃ d, meant? c root host f name = some d := by
  have hgc := hs.sprouts.grows
  have htarget := mem_targetNames hbody hstmt hwrite hname
  rw [meant?, member?_eq hgc hg.kept (hg.has_below hf.below),
    member?_eq hgc hg.kept (hg.has_below hf.below_host)]
  cases hparam : member? g f .param name with
  | some d => exact ⟨d, rfl⟩
  | none =>
    cases hfield : member? g host .field name with
    | some d => cases local? c f name <;> exact ⟨_, rfl⟩
    | none =>
      obtain ⟨d, hd⟩ := (declares_of_collected hs hf).exists_local
        (mem_localNames htarget hparam hfield)
      exact ⟨d, by rw [hd]; rfl⟩

end Collected

end Scopes

namespace Reference

open Scopes

variable {s : Scopes} {g c h : Graph} {root host f n : NodeId} {name : String}

/-! ## Ties change no definitions -/

section Linked

variable (hl : Linked s c h)
include hl

theorem Linked.member?_eq (host : NodeId) (kind : DeclKind) (name : String) :
    member? h host kind name = member? c host kind name := by
  rw [member?, member?, hl.items_eq]
  congr 1
  funext m
  rw [hl.name?_eq, decide_eq_decide.2 (hl.kind_iff (k := .decl kind) rfl m)]

theorem Linked.locals_eq (f : NodeId) : locals h f = locals c f := by
  rw [locals, locals, hl.child?_eq (by decide), funext hl.items_eq]

theorem Linked.meant?_eq (root host f : NodeId) (name : String) :
    meant? h root host f name = meant? c root host f name := by
  have hlocal : local? h f name = local? c f name := by
    rw [local?, local?, hl.locals_eq]
    congr 1
    funext m
    rw [hl.name?_eq]
  rw [meant?, meant?, hlocal, hl.member?_eq, hl.member?_eq, hl.member?_eq]

theorem Linked.declares {names : List String} (hd : Declares g c f names) :
    Declares g h f names where
  names := by
    rw [hl.locals_eq, ← hd.names]
    exact List.map_congr_left fun d _ => hl.name?_eq d
  kind d hmem := (hl.kind_iff rfl d).2 (hd.kind d (hl.locals_eq f ▸ hmem))
  isNew d hmem := hd.isNew d (hl.locals_eq f ▸ hmem)

end Linked

/-! ## The run -/

/-- Where a rule does not know an identifier, that is the node itself, and its name is not found. -/
theorem not_found_of_fire? {r : GraphRule} {m : NodeId} (hr : r ∈ rules s)
    (hfire : r.fire? c n = .error (.unknownIdentifier name m)) : m = n ∧
      (c.kind n = .expr .ident → c.name? n = some name ∧
        (s.lookup? c n name).or (s.function? name) = none) := by
  have hrequire : c.requireName n ≠ .error (.unknownIdentifier name m) := by
    unfold requireName
    split <;> nofun
  unfold Rule.fire? at hfire
  split at hfire
  · next happlies =>
    simp only [rules, List.mem_cons, List.not_mem_nil, or_false] at hr
    rcases hr with rfl | rfl | rfl | rfl
    · rcases Run.bind_eq_error.1 hfire with h | ⟨key, hkey, hfire⟩
      · exact absurd h hrequire
      · split at hfire
        · cases hfire
        · next hnone =>
          cases hfire
          exact ⟨rfl, fun _ => ⟨requireName_eq_ok.1 hkey, hnone⟩⟩
    · have hkind : c.kind n = .expr .fieldGet := by
        simpa using (Bool.and_eq_true_iff.1 (Bool.and_eq_true_iff.1 happlies).1).1
      rcases Run.bind_eq_error.1 hfire with h | ⟨key, hkey, hfire⟩
      · exact absurd h hrequire
      · split at hfire
        · cases hfire
        · cases hfire
          exact ⟨rfl, fun hident => by cases hkind.symm.trans hident⟩
    · rcases Run.bind_eq_error.1 hfire with h | ⟨key, hkey, hfire⟩
      · exact absurd h hrequire
      · split at hfire
        · cases hfire
        · split at hfire <;> cases hfire
    · rcases Run.bind_eq_error.1 hfire with h | ⟨key, hkey, hfire⟩
      · exact absurd h hrequire
      · split at hfire
        · cases hfire
        · split at hfire
          · cases hfire
          · split at hfire <;> cases hfire
  · cases hfire

/-- Where the rules are quiet, an identifier is tied to what is found under its name. -/
theorem Linked.ident (hl : Linked s c h) (hquiet : (identRule s).fire? h n = .ok none)
    (hkind : h.kind n = .expr .ident) : ∃ name d, h.name? n = some name ∧
      h.child? n .ref = some d ∧ (s.lookup? c n name).or (s.function? name) = some d := by
  obtain ⟨d, hd⟩ := tied_of_identRule hquiet hkind
  rcases hl.answer n with ⟨-, hnone⟩ | ha
  · cases hd.symm.trans hnone
  · rw [hkind, hd] at ha
    cases ha with
    | ident _ hname hfound => exact ⟨_, d, (hl.name?_eq n).trans hname, hd, hfound⟩

section Collected

variable (hg : Unscoped g root) (hs : Stage g root (Listed g root (g.items root)) s c)
  (hfunctions : ∀ name, s.function? name = member? g root .function name)
  (hcollect : (collect root).run g = (.ok s, c)) {ceiling : Nat}
include hg hs hfunctions hcollect

/-- A run that ends well ties each identifier below a function to what its name stands for there. -/
theorem meant_of_run {report : Report} (hrun : (run root ceiling).run g = (.ok report, h))
    (hf : Hosted g root host f) : Declares g h f (localNames g host f) ∧
      ∀ n, h.Below f n → h.kind n = .expr .ident → ∃ name d, h.name? n = some name ∧
        h.child? n .ref = some d ∧ meant? h root host f name = some d ∧
          ∀ k, h.Below root k → (h.kind k).isScopeHost → Holds h k d →
            k = f ∨ k = host ∨ k = root := by
  have hgc := hs.sprouts.grows
  have hc : Outlined c root := hs.sprouts.outlined hg.toOutlined
  have hfc : Hosted c root host f := hosted hgc hg.toOutlined hf
  obtain ⟨stats, hfix, -⟩ := fixpoint_of_run hcollect hrun
  have hl : Linked s c h := linked_of_fixpoint (hgc.untied hg.untied) hfix
  have hquiet := Rule.quiet_of_fixpoint hfix
  refine ⟨hl.declares (declares_of_collected hs hf), fun n hn hkind => ?_⟩
  have hnc : c.Below f n := (hl.below_iff f).1 hn
  have hne : n ≠ f := by
    rintro rfl
    cases hfc.kind.symm.trans ((hl.kind_iff rfl n).1 hkind)
  have hcandidate : n ∈ c.reachable root fun _ => true :=
    mem_reachable.2 ⟨hfc.below.trans hnc, rfl⟩
  obtain ⟨name, d, hname, hd, hfound⟩ :=
    hl.ident (hquiet (identRule s) (by simp [rules]) n hcandidate) hkind
  have hmeant : meant? c root host f name = some d := by
    rw [← lookup?_eq_meant? hs hf hg hfunctions hnc hne, hfound]
  refine ⟨name, d, hname, hd, by rw [hl.meant?_eq, hmeant], fun k hk hhost hkd => ?_⟩
  refine holder_of_meant? hc hfc hmeant ((hl.below_iff root).1 hk) ?_ ?_
  · rwa [← hl.isScopeHost_eq]
  · unfold Holds at hkd ⊢
    rwa [hl.items_eq, hl.locals_eq] at hkd

/-- However a run ends, no identifier that is written is the unknown one. -/
theorem not_written_of_run
    (hrun : (run root ceiling).run g = (.error (.unknownIdentifier name n), h)) :
    ¬Written g root n := by
  rintro ⟨host, f, body, stmt, hf, hbody, hstmt, hwrite, htarget, hkind⟩
  have hgc := hs.sprouts.grows
  have hc : c.Untied := hgc.untied hg.untied
  have hbelow : g.Below f n := ((Below.root.of_child? hbody rfl).trans hstmt).of_child? htarget rfl
  have hhas : g.has n := hg.has_below (hf.below.trans hbelow)
  have hkindc : c.kind n = .expr .ident := (hgc.kind n hhas).trans hkind
  rw [run_of_collect hcollect, Run.run_bind_eq_error] at hrun
  rcases hrun with hfix | ⟨stats, t, -, hrun⟩
  · rcases Rule.fails_of_fixpoint
      (fun r hr n _ t t' ht hfires => ((firesOnce_rules hc).step r hr n t t' ht hfires).1)
      (linked_refl hc) hfix with hdiverged | ⟨r, hr, m, -, t, hl, hfails⟩
    · cases hdiverged
    · obtain ⟨rfl, hnone⟩ := not_found_of_fire? hr (fire?_of_fails hc hl hr hfails)
      obtain ⟨hname, hnone⟩ := hnone hkindc
      have hwritten : writtenName? g stmt = some name := by
        rw [writtenName?, htarget]
        simp only [hkind, if_true]
        rw [← name?_eq hgc hhas, hname]
      have hne : n ≠ f := by
        rintro rfl
        cases hf.kind.symm.trans hkind
      obtain ⟨d, hd⟩ := exists_meant? hs hf hg hbody hstmt hwrite hwritten
      rw [lookup?_eq_meant? hs hf hg hfunctions (hs.sprouts.keeps_below hbelow) hne, hd] at hnone
      cases hnone
  · -- the last check does not look for identifiers
    rw [Run.run_bind_of_ok Run.run_get, Run.run_bind_eq_error] at hrun
    rcases hrun with hcheck | ⟨-, u, -, hrun⟩
    · rw [Run.run_ofExcept] at hcheck
      have hcheck := (Run.outcome_eq.1 hcheck).1
      unfold checkResolved at hcheck
      split at hcheck
      · cases hcheck
      · rcases Run.bind_eq_error.1 hcheck with h | ⟨key, -, hcheck⟩
        · unfold requireName at h
          split at h <;> cases h
        · split at hcheck <;> cases hcheck
    · cases (Run.outcome_eq.1 hrun).1

end Collected

/-- On a program tree whose scopes are not collected yet, collecting them ends well and gives every
function one local for each name that its body writes and that no parameter of it and no field of
its class has, in the order of the first writes. If tying the references ends well, each identifier
below a function is tied to what its name stands for in this function, which no host holds but those
in which the name is looked up. However tying ends, an identifier that is written in a body is never
the unknown one. -/
theorem scoping (hg : Unscoped g root) :
    (∃ s c, (collect root).run g = (.ok s, c) ∧ ∀ host f, Hosted g root host f →
      Declares g c f (localNames g host f)) ∧
    (∀ ceiling report h, (run root ceiling).run g = (.ok report, h) →
      ∀ host f, Hosted g root host f → Declares g h f (localNames g host f) ∧
        ∀ n, h.Below f n → h.kind n = .expr .ident → ∃ name d, h.name? n = some name ∧
          h.child? n .ref = some d ∧ meant? h root host f name = some d ∧
            ∀ k, h.Below root k → (h.kind k).isScopeHost → Holds h k d →
              k = f ∨ k = host ∨ k = root) ∧
    ∀ ceiling name n h, (run root ceiling).run g = (.error (.unknownIdentifier name n), h) →
      ¬Written g root n := by
  obtain ⟨s, c, hcollect, hs, hfunctions⟩ := yields_collect hg
  exact ⟨⟨s, c, hcollect, fun host f hf => declares_of_collected hs hf⟩,
    fun _ _ _ hrun _ _ hf => meant_of_run hg hs hfunctions hcollect hrun hf,
    fun _ _ _ _ hrun => not_written_of_run hg hs hfunctions hcollect hrun⟩

/-- A method that writes a field of its class and a name of its own, and a function that has a
parameter of the name of the field and reads a name before it writes it. -/
def shadowingSource : Build Unit := do
  let counter ← Program.classDecl "Counter"
  let _ ← Program.field counter "count" none none
  let bump ← Program.method counter "bump"
  let _ ← Program.param bump "step" none
  let _ ← Program.assign ⟨4⟩ (← Program.ident "count") (← Program.ident "step")
  let _ ← Program.varInit ⟨4⟩ "total" none (← Program.ident "count")
  let main ← Program.function "main"
  let _ ← Program.param main "count" none
  let loop ← Program.whileLoop ⟨13⟩ (← Program.boolean true)
  let _ ← Program.varInit loop "total" none (← Program.ident "late")
  let _ ← Program.assign loop (← Program.ident "count") (← Program.ident "total")
  let _ ← Program.assign ⟨13⟩ (← Program.ident "late") (← Program.ident "main")

def shadowing : Graph := (shadowingSource.run Program.empty).2

/-- The method gets one local and the function two, and the name that is read first is tied to what
it stands for in the function. -/
theorem scoping_shadowing : Unscoped shadowing Program.root ∧
    Declares shadowing ((run Program.root 1).run shadowing).2 ⟨3⟩ ["total"] ∧
    Declares shadowing ((run Program.root 1).run shadowing).2 ⟨12⟩ ["total", "late"] ∧
    ∃ name d, ((run Program.root 1).run shadowing).2.name? ⟨18⟩ = some name ∧
      ((run Program.root 1).run shadowing).2.child? ⟨18⟩ .ref = some d ∧
      meant? ((run Program.root 1).run shadowing).2 Program.root Program.root ⟨12⟩ name =
        some d := by
  have hunscoped : Unscoped shadowing Program.root := by decide +kernel
  have hbump : Hosted shadowing Program.root ⟨1⟩ ⟨3⟩ :=
    .method (by decide +kernel) (by decide +kernel) (by decide +kernel) (by decide +kernel)
  have hmain : Hosted shadowing Program.root Program.root ⟨12⟩ :=
    .program (by decide +kernel) (by decide +kernel)
  have hnames : localNames shadowing ⟨1⟩ ⟨3⟩ = ["total"] ∧
      localNames shadowing Program.root ⟨12⟩ = ["total", "late"] := by decide +kernel
  have hrun : ((run Program.root 1).run shadowing).1 = .ok ⟨6, 1, 1, ⟨2, 1, 10⟩⟩ ∧
      ⟨18⟩ ∈ ((run Program.root 1).run shadowing).2.reachable ⟨12⟩ (fun _ => true) ∧
      ((run Program.root 1).run shadowing).2.kind ⟨18⟩ = .expr .ident := by decide +kernel
  obtain ⟨hok, hbelow, hkind⟩ := hrun
  obtain ⟨-, hties, -⟩ := scoping hunscoped
  obtain ⟨htotal, -⟩ := hties 1 _ _ (Prod.fst_eq_iff.1 hok) _ _ hbump
  obtain ⟨hboth, htied⟩ := hties 1 _ _ (Prod.fst_eq_iff.1 hok) _ _ hmain
  rw [hnames.1] at htotal
  rw [hnames.2] at hboth
  obtain ⟨name, d, hname, hd, hmeant, -⟩ := htied ⟨18⟩ (mem_reachable.1 hbelow).1 hkind
  exact ⟨hunscoped, htotal, hboth, name, d, hname, hd, hmeant⟩

end Reference

end TypeFlow
