import TypeFlow.Proofs.Local
import TypeFlow.Proofs.Scope.Sprouts
/-!
# The tables of a program

On a program tree whose scopes are not collected yet, collecting them ends well (`yields_collect`).
Every function then has its locals, and the tables say what the graph does: from a function, a name
is looked up among its parameters, then among its locals and at last among the fields of the class
around it (`Stage.lookupFrom_function`).
-/

namespace TypeFlow

namespace Scopes

open TypeFlow.Graph Program

variable {g c c' : Graph} {s : Scopes} {root host f k cls : NodeId} {name : String} {t : ScopeTable}
  {P : NodeId → Prop}

/-! ## Reading tables -/

theorem table?_setTable :
    (s.setTable host t).table? k = if k = host then some t else s.table? k := by
  have hfilter : ∀ l : List (NodeId × ScopeTable),
      (l.filter (·.1 ≠ host)).lookup k = if k = host then none else l.lookup k := by
    intro l
    induction l with
    | nil => simp
    | cons u l ih =>
      obtain ⟨h, u⟩ := u
      by_cases hh : h = host
      · rw [List.filter_cons_of_neg (by simp [hh]), ih, List.lookup_cons]
        by_cases hk : k = host
        · rw [if_pos hk, if_pos hk]
        · rw [if_neg hk, if_neg hk, beq_false_of_ne (hh ▸ hk)]
      · rw [List.filter_cons_of_pos (by simpa using hh), List.lookup_cons, ih, List.lookup_cons]
        by_cases hkh : k = h
        · simp [hkh, hh]
        · simp [beq_false_of_ne hkh]
  unfold setTable table?
  rw [List.lookup_append, hfilter]
  by_cases hk : k = host
  · simp [hk]
  · simp [hk, List.lookup_cons, beq_false_of_ne hk]

theorem lookupOver_none (hops : Nat) : s.lookupOver name hops none = none := by
  cases hops <;> rfl

theorem lookupOver_of_table (h : s.table? host = some t) (name : String) (hops : Nat) :
    s.lookupOver name (hops + 1) (some host) =
      (t.get? name).or (s.lookupOver name hops t.parent?) := by
  rw [lookupOver]
  simp only [h]
  cases t.get? name <;> rfl

/-- There are as many tables as hosts that have one. -/
theorem length_le_tables (hosts : List NodeId) (hnodup : hosts.Nodup)
    (h : ∀ k ∈ hosts, (s.table? k).isSome) : hosts.length ≤ s.tables.length := by
  have hsub : hosts ⊆ s.tables.map Prod.fst := fun k hk => by
    obtain ⟨t, ht⟩ := Option.isSome_iff_exists.1 (h k hk)
    obtain ⟨l₁, l₂, hl, -⟩ := List.lookup_eq_some_iff.1 ht
    rw [hl]
    simp
  simpa using (hnodup.subperm hsub).length_le

/-! ## Tables that are collected so far -/

/-- The scopes of some of the hosts of a program are collected, those of which `P` tells. -/
structure Stage (g : Graph) (root : NodeId) (P : NodeId → Prop) (s : Scopes) (c : Graph) :
    Prop where
  sprouts : Sprouts g c
  tabled : ∀ k, (s.table? k).isSome ↔ P k
  bare : ∀ f, ¬P f → c.child? f .locals = none
  program : s.table? root = some ⟨[], none⟩
  classDecl : ∀ cls ∈ g.items root, g.kind cls = .decl .classDecl → ∀ t, s.table? cls = some t →
    t.parent? = some root ∧ ∀ name, t.get? name = member? g cls .field name
  function : ∀ host f, Hosted g root host f → ∀ t, s.table? f = some t → t.parent? = some host ∧
    Declares g c f (localNames g host f) ∧
      ∀ name, t.get? name = (member? g f .param name).or (local? c f name)

namespace Stage

theorem congr {P' : NodeId → Prop} (hs : Stage g root P s c) (h : ∀ k, P k ↔ P' k) :
    Stage g root P' s c := by
  obtain rfl : P = P' := funext fun k => propext (h k)
  exact hs

section Lookup

variable (hs : Stage g root P s c) (hg : Outlined g root) (hf : Hosted g root host f)
include hs hg hf

/-- From a host around functions, fields of it are looked up. The way out is two tables long at
most. -/
theorem lookupOver_host (hhost : P host) (name : String) {hops : Nat} (hone : 1 ≤ hops)
    (htwo : host ≠ root → 2 ≤ hops) :
    s.lookupOver name hops (some host) = member? g host .field name := by
  obtain ⟨hops, rfl⟩ : ∃ k, hops = k + 1 := ⟨hops - 1, by omega⟩
  rcases hf.root_or_class with rfl | ⟨hitem, hclass⟩
  · have hnone : member? g host .field name = none := by
      refine List.find?_eq_none.2 fun m hm => ?_
      rcases hg.items m hm with hkind | hkind <;> simp [hkind]
    rw [lookupOver_of_table hs.program, lookupOver_none, hnone]
    rfl
  · obtain ⟨hops, rfl⟩ : ∃ k, hops = k + 1 := ⟨hops - 1, by
      have := htwo fun h => by cases (h ▸ hclass).symm.trans hg.program
      omega⟩
    obtain ⟨t, ht⟩ := Option.isSome_iff_exists.1 ((hs.tabled host).2 hhost)
    obtain ⟨hparent, hget⟩ := hs.classDecl host hitem hclass t ht
    rw [lookupOver_of_table ht, hparent, lookupOver_of_table hs.program, lookupOver_none, hget]
    exact Option.or_none

theorem lookupFrom_host (hhost : P host) (name : String) :
    s.lookupFrom host name = member? g host .field name := by
  have htabled := (hs.tabled host).2 hhost
  refine hs.lookupOver_host hg hf hhost name (length_le_tables [host] ?_ ?_) fun hne =>
    length_le_tables [host, root] ?_ ?_
  · simp
  · simpa using htabled
  · simpa using hne
  · simp [htabled, hs.program]

/-- From a function, its parameters, its locals and the fields around it are looked up, in this
order. -/
theorem lookupFrom_function (hhost : P host) (hfunc : P f) (name : String) :
    s.lookupFrom f name =
      ((member? g f .param name).or (local? c f name)).or (member? g host .field name) := by
  have htabled := (hs.tabled host).2 hhost
  have hfunc' := (hs.tabled f).2 hfunc
  have htwo : 2 ≤ s.tables.length := by
    refine length_le_tables [f, host] ?_ ?_
    · simpa using (hg.host_ne hf).symm
    · simp [htabled, hfunc']
  have hthree : host ≠ root → 3 ≤ s.tables.length := by
    intro hne
    refine length_le_tables [f, host, root] ?_ ?_
    · simp [(hg.host_ne hf).symm, hg.ne_root hf, hne]
    · simp [htabled, hfunc', hs.program]
  obtain ⟨t, ht⟩ := Option.isSome_iff_exists.1 hfunc'
  obtain ⟨hparent, -, hget⟩ := hs.function host f hf t ht
  obtain ⟨hops, hhops⟩ : ∃ k, s.tables.length = k + 1 := ⟨s.tables.length - 1, by omega⟩
  rw [lookupFrom, hhops, lookupOver_of_table ht, hparent, hget,
    hs.lookupOver_host hg hf hhost name (by omega) fun hne => by have := hthree hne; omega]

end Lookup

/-- Other functions and classes of the program make no difference to the tables. -/
theorem withNames {s' : Scopes} (hs : Stage g root P s c) (htables : s'.tables = s.tables) :
    Stage g root P s' c := by
  have htable : ∀ k, s'.table? k = s.table? k := fun k => by rw [table?, table?, htables]
  refine ⟨hs.sprouts, fun k => ?_, hs.bare, ?_, fun cls hcls hclass t ht => ?_,
    fun host f hf t ht => ?_⟩
  · rw [htable, hs.tabled]
  · rw [htable, hs.program]
  · exact hs.classDecl cls hcls hclass t (htable cls ▸ ht)
  · exact hs.function host f hf t (htable f ▸ ht)

/-! ## Collecting -/

variable (hg : Unscoped g root)
include hg

/-- The names of the locals that are made are those that a function has to have. -/
theorem newNames_eq_localNames (hs : Stage g root P s c) (hf : Hosted g root host f)
    (hhost : P host) {body : NodeId} (hbody : g.child? f .body = some body) {params : Definitions}
    (hparams : ∀ name, params.lookup name = member? g f .param name) :
    newNames (fun name => ((tableOf host params).get? name).isSome ||
      (s.lookupFrom host name).isSome) (writtenNames c body) = localNames g host f := by
  rw [newNames_eq, writtenNames_eq hs.sprouts hg.toOutlined hf hbody, localNames]
  congr 2
  funext name
  rw [get?_tableOf, hparams, hs.lookupFrom_host hg.toOutlined hf hhost]
  cases member? g f .param name <;> cases member? g host .field name <;> rfl

/-- What a node of the program lists is read by its names while scopes are collected, too. -/
theorem namedMembers_spec (hs : Stage g root P s c) {n : NodeId} (hn : g.Below root n)
    {kind : DeclKind} (hkind : isDeclaration (.decl kind)) :
    ∃ defs, namedMembers c kind (c.items n) = .ok defs ∧
      ∀ name, defs.lookup name = member? g n kind name := by
  have hgc := hs.sprouts.grows
  have hhas : g.has n := hg.has_below hn
  obtain ⟨defs, hok, hlookup⟩ := namedMembers_eq_ok c kind (c.items n) fun m hm hdecl => by
    rw [hgc.items_eq hhas] at hm
    have hbelow : g.Below root m := hn.of_mem_items hm
    have hmhas : g.has m := hg.has_below hbelow
    rw [hgc.kind m hmhas] at hdecl
    rw [name?_eq hgc hmhas]
    exact hg.named m hbelow (by rwa [hdecl])
  exact ⟨defs, hok, fun name => (hlookup name).trans (member?_eq hgc hg.kept hhas kind name)⟩

/-- One more host gets its table, and its locals, if it is a function. -/
theorem withTable (hs : Stage g root P s c) (hcc : Sprouts c c') (hroot : host ≠ root)
    (hchild : ∀ k, k ≠ host → c'.child? k .locals = c.child? k .locals)
    (hclass : host ∈ g.items root → g.kind host = .decl .classDecl →
      t.parent? = some root ∧ ∀ name, t.get? name = member? g host .field name)
    (hfunction : ∀ around, Hosted g root around host → t.parent? = some around ∧
      Declares g c' host (localNames g around host) ∧
        ∀ name, t.get? name = (member? g host .param name).or (local? c' host name)) :
    Stage g root (fun k => P k ∨ k = host) (s.setTable host t) c' := by
  have hkept : c.WellKept := (hs.sprouts.outlined hg.toOutlined).kept
  refine ⟨hs.sprouts.trans hcc, fun k => ?_, fun k hk => ?_, ?_, fun cls hcls hkind t' ht => ?_,
    fun around f hf t' ht => ?_⟩
  · rw [table?_setTable, ← hs.tabled k]
    by_cases hk : k = host <;> simp [hk]
  · obtain ⟨hk, hkhost⟩ := not_or.1 hk
    rw [hchild k hkhost]
    exact hs.bare k hk
  · rw [table?_setTable, if_neg hroot.symm, hs.program]
  · rw [table?_setTable] at ht
    split at ht
    · next hsame =>
      obtain rfl := hsame
      obtain rfl := Option.some.inj ht
      exact hclass hcls hkind
    · exact hs.classDecl cls hcls hkind t' ht
  · rw [table?_setTable] at ht
    split at ht
    · next hsame =>
      obtain rfl := hsame
      obtain rfl := Option.some.inj ht
      exact hfunction around hf
    · next hne =>
      -- the locals of the functions before are where they were
      obtain ⟨hparent, hdeclares, hget⟩ := hs.function around f hf t' ht
      refine ⟨hparent, hdeclares.mono hcc.grows hkept (hchild f hne), fun name => ?_⟩
      rw [hget, local?_eq hcc.grows hkept (hchild f hne)]

theorem yields_collectFunction (hs : Stage g root P s c) (hf : Hosted g root host f)
    (hhost : P host) (hnew : ¬P f) :
    Run.Yields (s.collectFunction f host) c fun s' c' =>
      Stage g root (fun k => P k ∨ k = f) s' c' ∧ s'.functions = s.functions := by
  have hgc := hs.sprouts.grows
  have hhas : g.has f := hg.has_below hf.below
  have hkind : c.kind f = .decl .function := (hgc.kind f hhas).trans hf.kind
  obtain ⟨body, hbody⟩ := Option.isSome_iff_exists.1 (hg.body f hf.below hf.kind)
  obtain ⟨params, hok, hparams⟩ :=
    namedMembers_spec hg hs hf.below (show isDeclaration (.decl .param) from rfl)
  have hbody' : c.child? f .body = some body := by
    rw [hgc.child?_eq hhas (by decide), hbody]
  unfold collectFunction
  refine Run.yields_get_bind <| Run.yields_ofExcept_bind hok <|
    Run.yields_ofExcept_bind (requireChild_eq_ok.2 hbody') <| Run.yields_lift_bind ?_
  rw [newNames_eq_localNames hg hs hf hhost hbody hparams]
  obtain ⟨defs, c', hrun, hcc, hchild, hlocals, hnames, hdefs⟩ := addLocals_spec hkind
    (hs.bare f hnew) ((length_localNames hg.toRooted hf.below host).trans hg.small)
  rw [hrun]
  refine Run.yields_pure ⟨hs.withTable hg hcc (hg.ne_root hf) hchild (fun _ hclass => ?_)
    fun host' hf' => ?_, rfl⟩
  · cases hclass.symm.trans hf.kind
  · obtain rfl := hg.host_unique hf hf'
    refine ⟨parent?_tableOf _ _, .of_made hgc hlocals hnames hdefs, fun name => ?_⟩
    have hget : (tableOf host params).defs.lookup name = member? g f .param name :=
      (get?_tableOf host params name).trans (hparams name)
    change ((tableOf host params).defs ++ defs).lookup name = _
    rw [List.lookup_append, hget, local?, hlocals, lookup_eq_find? fun d hd => (hdefs d hd).2.2]

theorem yields_collectFunctions : ∀ {ms : List NodeId} {P : NodeId → Prop} {s : Scopes} {c : Graph},
    Stage g root P s c → P host → ms.Nodup → (∀ m ∈ ms, g.has m) →
      (∀ m ∈ ms, g.kind m = .decl .function → Hosted g root host m ∧ ¬P m) →
        Run.Yields (collectFunctions host s ms) c fun s' c' =>
          Stage g root (fun k => P k ∨ k ∈ ms ∧ g.kind k = .decl .function) s' c' ∧
            s'.functions = s.functions
  | [], P, s, c, hs, _, _, _, _ =>
    Run.yields_pure ⟨hs.congr fun k => by simp, rfl⟩
  | m :: ms, P, s, c, hs, hhost, hnodup, hhas, hms => by
    obtain ⟨hm, hnodup⟩ := List.nodup_cons.1 hnodup
    obtain ⟨hhas, hhass⟩ := List.forall_mem_cons.1 hhas
    rw [collectFunctions]
    refine Run.yields_get_bind ?_
    rw [hs.sprouts.grows.kind m hhas]
    split
    · next hkind =>
      obtain ⟨hf, hnew⟩ := hms m List.mem_cons_self hkind
      refine (yields_collectFunction hg hs hf hhost hnew).bind fun s' c' ⟨hs', hfunctions⟩ => ?_
      refine (yields_collectFunctions hs' (Or.inl hhost) hnodup hhass fun k hk hkind' => ?_).mono
        fun s'' c'' ⟨hs'', hfunctions'⟩ => ⟨hs''.congr fun k => ?_, hfunctions'.trans hfunctions⟩
      · obtain ⟨hf', hnew'⟩ := hms k (List.mem_cons_of_mem m hk) hkind'
        exact ⟨hf', fun h => h.elim hnew' fun h => hm (h ▸ hk)⟩
      · by_cases hkm : k = m <;> simp [hkm, hkind]
    · next hkind =>
      refine (yields_collectFunctions hs hhost hnodup hhass fun k hk =>
        hms k (List.mem_cons_of_mem m hk)).mono
          fun s'' c'' ⟨hs'', hfunctions⟩ => ⟨hs''.congr fun k => ?_, hfunctions⟩
      by_cases hkm : k = m <;> simp [hkm, hkind]

theorem yields_collectClass (hs : Stage g root P s c) (hcls : cls ∈ g.items root)
    (hclass : g.kind cls = .decl .classDecl)
    (hitems : ∀ m ∈ g.items cls, g.kind m = .decl .function → ¬P m) :
    Run.Yields (s.collectClass cls root) c fun s' c' =>
      Stage g root (fun k => (P k ∨ k = cls) ∨ k ∈ g.items cls ∧ g.kind k = .decl .function) s' c' ∧
        s'.functions = s.functions := by
  have hgc := hs.sprouts.grows
  have hbelow : g.Below root cls := Below.root.of_mem_items hcls
  have hhas : g.has cls := hg.has_below hbelow
  have hitem : ∀ m ∈ g.items cls, g.has m := fun m hm => hg.has_below (hbelow.of_mem_items hm)
  obtain ⟨fields, hok, hfields⟩ :=
    namedMembers_spec hg hs hbelow (show isDeclaration (.decl .field) from rfl)
  have hne : cls ≠ root := by
    rintro rfl
    cases hclass.symm.trans hg.program
  have hs' : Stage g root (fun k => P k ∨ k = cls) (s.setTable cls (tableOf root fields)) c := by
    refine hs.withTable hg .refl hne (fun _ _ => rfl) (fun _ _ => ?_) fun around hf => ?_
    · refine ⟨parent?_tableOf _ _, fun name => ?_⟩
      rw [get?_tableOf, hfields]
    · cases hclass.symm.trans hf.kind
  unfold collectClass
  refine Run.yields_get_bind <| Run.yields_ofExcept_bind hok ?_
  rw [hgc.items_eq hhas]
  refine yields_collectFunctions hg hs' (Or.inr rfl) (hg.nodup_items hbelow) hitem
    fun m hm hkind => ?_
  have hf : Hosted g root cls m := .method hcls hclass hm hkind
  exact ⟨hf, fun h => h.elim (hitems m hm hkind) (hg.host_ne hf).symm⟩

end Stage

/-- The hosts among some items of the program, with the functions that they hold, and the program
itself. -/
def Listed (g : Graph) (root : NodeId) (items : List NodeId) (k : NodeId) : Prop :=
  k = root ∨ k ∈ items ∨
    ∃ cls ∈ items, g.kind cls = .decl .classDecl ∧ k ∈ g.items cls ∧ g.kind k = .decl .function

/-- The first function of a name in a list. -/
def functionIn? (g : Graph) (items : List NodeId) (name : String) : Option NodeId :=
  items.find? fun m => g.kind m = .decl .function && g.name? m = some name

/-- One more item brings itself, and the functions of a class that it is. -/
theorem listed_concat {ys : List NodeId} {x : NodeId} : Listed g root (ys ++ [x]) k ↔
    Listed g root ys k ∨ k = x ∨
      g.kind x = .decl .classDecl ∧ k ∈ g.items x ∧ g.kind k = .decl .function := by
  simp only [Listed, List.mem_append, List.mem_singleton, or_and_right, exists_or,
    exists_eq_left]
  generalize (∃ y ∈ ys, g.kind y = .decl .classDecl ∧ k ∈ g.items y ∧
    g.kind k = .decl .function) = method
  tauto

theorem functionIn?_concat (ys : List NodeId) (x : NodeId) (name : String) :
    functionIn? g (ys ++ [x]) name = (functionIn? g ys name).or
      (if g.kind x = .decl .function ∧ g.name? x = some name then some x else none) := by
  rw [functionIn?, List.find?_append, List.find?_singleton, functionIn?]
  simp only [Bool.and_eq_true, decide_eq_true_eq]

section Collect

variable {ys : List NodeId} {x : NodeId} (hg : Unscoped g root)
include hg

/-- The hosts that an item brings were not listed before. -/
theorem not_listed (hys : ∀ y ∈ ys, y ∈ g.items root) (hx : x ∈ g.items root) (hxs : x ∉ ys) :
    ¬Listed g root ys x ∧ (g.kind x = .decl .classDecl → ∀ m ∈ g.items x,
      g.kind m = .decl .function → ¬Listed g root ys m) := by
  have hroot : ∀ m ∈ g.items root, m ≠ root := by
    rintro m hm rfl
    rcases hg.items m hm with hkind | hkind <;> cases hkind.symm.trans hg.program
  have hmember : ∀ y ∈ g.items root, ∀ m ∈ g.items y, g.parents m = [y] := fun y hy m hm =>
    hg.parents_of_mem_items (Below.root.of_mem_items hy) hm
  have hparents : ∀ y ∈ g.items root, g.parents y = [root] := fun y hy =>
    hg.parents_of_mem_items .root hy
  refine ⟨?_, fun hclass m hm hkind => ?_⟩
  · rintro (h | h | ⟨cls, hcls, -, hmem, -⟩)
    · exact hroot x hx h
    · exact hxs h
    · have hsame := (hparents x hx).symm.trans (hmember cls (hys cls hcls) x hmem)
      exact hroot cls (hys cls hcls) (List.singleton_inj.1 hsame).symm
  · rintro (h | h | ⟨cls, hcls, -, hmem, -⟩)
    · rw [h] at hkind
      cases hkind.symm.trans hg.program
    · have hsame := (hparents m (hys m h)).symm.trans (hmember x hx m hm)
      exact hroot x hx (List.singleton_inj.1 hsame).symm
    · have hsame := (hmember x hx m hm).symm.trans (hmember cls (hys cls hcls) m hmem)
      exact hxs (List.singleton_inj.1 hsame ▸ hcls)

theorem yields_collectItem (hs : Stage g root (Listed g root ys) s c)
    (hfunctions : ∀ name, s.function? name = functionIn? g ys name)
    (hys : ∀ y ∈ ys, y ∈ g.items root) (hx : x ∈ g.items root) (hxs : x ∉ ys) :
    Run.Yields (collectItem root s x) c fun s' c' =>
      Stage g root (Listed g root (ys ++ [x])) s' c' ∧
        ∀ name, s'.function? name = functionIn? g (ys ++ [x]) name := by
  have hgc := hs.sprouts.grows
  have hbelow : g.Below root x := Below.root.of_mem_items hx
  have hhas : g.has x := hg.has_below hbelow
  obtain ⟨hnew, hmembers⟩ := not_listed hg hys hx hxs
  have hname : isDeclaration (g.kind x) → ∃ name, g.name? x = some name ∧
      c.requireName x = .ok name := fun hdecl => by
    obtain ⟨name, hname⟩ := Option.isSome_iff_exists.1 (hg.named x hbelow hdecl)
    exact ⟨name, hname, requireName_eq_ok.2 ((name?_eq hgc hhas).trans hname)⟩
  unfold collectItem
  refine Run.yields_get_bind ?_
  rw [hgc.kind x hhas]
  rcases hg.items x hx with hkind | hkind
  · obtain ⟨key, hkey, hok⟩ := hname (by rw [hkind]; rfl)
    rw [hkind]
    refine Run.yields_ofExcept_bind hok ?_
    have hs' :
        Stage g root (Listed g root ys) { s with functions := s.functions.declare key x } c :=
      hs.withNames rfl
    refine (hs'.yields_collectFunction hg (.program hx hkind) (Or.inl rfl) hnew).mono
      fun s' c' ⟨hs'', hsame⟩ => ⟨hs''.congr fun k => ?_, fun name => ?_⟩
    · simp [listed_concat, hkind]
    · rw [function?, hsame, functionIn?_concat, ← hfunctions]
      change (s.functions.declare key x).lookup name = _
      rw [lookup_declare]
      by_cases hn : name = key
      · simp [hn, hkind, hkey, function?]
      · simp [hn, hkind, hkey, Ne.symm hn, function?]
  · obtain ⟨key, -, hok⟩ := hname (by rw [hkind]; rfl)
    rw [hkind]
    refine Run.yields_ofExcept_bind hok ?_
    have hs' : Stage g root (Listed g root ys) { s with classes := s.classes.declare key x } c :=
      hs.withNames rfl
    refine (hs'.yields_collectClass hg hx hkind (hmembers hkind)).mono
      fun s' c' ⟨hs'', hsame⟩ => ⟨hs''.congr fun k => ?_, fun name => ?_⟩
    · simp [listed_concat, hkind, or_assoc]
    · rw [function?, hsame, functionIn?_concat, ← hfunctions]
      simp [hkind, function?]

/-- Collecting the scopes of a program tree ends well. All hosts have their tables then, and the
functions of the program are known by their names. -/
theorem yields_collect : Run.Yields (collect root) g fun s c =>
    Stage g root (Listed g root (g.items root)) s c ∧
      ∀ name, s.function? name = member? g root .function name := by
  have hempty : Stage g root (Listed g root []) (empty.setTable root ⟨[], none⟩) g := by
    have htable : ∀ k, (empty.setTable root ⟨[], none⟩).table? k =
        if k = root then some ⟨[], none⟩ else none := fun k => table?_setTable
    refine ⟨.refl, fun k => ?_, fun f _ => hg.bare f, by rw [htable, if_pos rfl],
      fun cls _ hclass t ht => ?_, fun host f hf t ht => ?_⟩
    · rw [htable]
      by_cases hk : k = root <;> simp [hk, Listed]
    · rw [htable] at ht
      split at ht
      · next h => cases (h ▸ hclass).symm.trans hg.program
      · cases ht
    · rw [htable, if_neg (hg.ne_root hf)] at ht
      cases ht
  unfold collect
  refine Run.yields_get_bind ?_
  refine Run.yields_foldlM (Q := fun ys s c => Stage g root (Listed g root ys) s c ∧
    ∀ name, s.function? name = functionIn? g ys name)
      (fun ys x zs hsplit s c ⟨hs, hfunctions⟩ => ?_) ⟨hempty, fun name => rfl⟩
  have hnodup := hg.nodup_items .root
  rw [hsplit] at hnodup
  refine yields_collectItem hg hs hfunctions (fun y hy => ?_) ?_ fun hx => ?_
  · rw [hsplit]
    exact List.mem_append_left _ hy
  · rw [hsplit]
    simp
  · exact (List.nodup_append.1 hnodup).2.2 x hx x List.mem_cons_self rfl

end Collect

end Scopes

end TypeFlow
