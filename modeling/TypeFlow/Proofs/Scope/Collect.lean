import TypeFlow.Proofs.Graph.Grows
import TypeFlow.Proofs.Local
import TypeFlow.Proofs.Program.Shape
import TypeFlow.Scope.Collect
/-!
# What collecting scopes leaves behind

Collecting adds nodes to a graph and gives functions their locals; all else of the graph stays.
The tables that it makes name definitions of that graph: variables in every table, the fields of a
class in the table of the class, and the functions and classes of the program (`Sound`,
`keeps_collect`).
-/

namespace TypeFlow

namespace Scopes

open TypeFlow.Graph Program

variable {g c c' : Graph} {s : Scopes} {root host func parent : NodeId}

/-! ## Sound tables -/

/-- What a table may say that a host defines: a variable, and a field of its own if the host is a
class. -/
structure Defines (c : Graph) (host d : NodeId) : Prop where
  hosted : c.has host
  has : c.has d
  isVariable : Program.isVariable (c.kind d)
  field : c.kind host = .decl .classDecl → d ∈ c.items host ∧ c.kind d = .decl .field

/-- The tables name definitions of the graph. -/
structure Sound (s : Scopes) (c : Graph) (root : NodeId) : Prop where
  tables : ∀ t ∈ s.tables, ∀ d ∈ t.2.defs, Defines c t.1 d.2
  functions : ∀ d ∈ s.functions, c.has root ∧ d.2 ∈ c.items root ∧ c.has d.2 ∧
    c.kind d.2 = .decl .function
  classes : ∀ d ∈ s.classes, c.has root ∧ d.2 ∈ c.items root ∧ c.has d.2 ∧
    c.kind d.2 = .decl .classDecl

theorem Defines.mono {d : NodeId} (h : Defines c host d) (hcc : Grows c c') :
    Defines c' host d where
  hosted := hcc.has _ h.hosted
  has := hcc.has _ h.has
  isVariable := by
    rw [hcc.kind _ h.has]
    exact h.isVariable
  field hclass := by
    rw [hcc.kind _ h.hosted] at hclass
    rw [hcc.items_eq h.hosted, hcc.kind _ h.has]
    exact h.field hclass

theorem Sound.mono (h : Sound s c root) (hcc : Grows c c') : Sound s c' root where
  tables t ht d hd := (h.tables t ht d hd).mono hcc
  functions d hd := by
    obtain ⟨hroot, hitem, hhas, hkind⟩ := h.functions d hd
    exact ⟨hcc.has _ hroot, by rwa [hcc.items_eq hroot], hcc.has _ hhas,
      (hcc.kind _ hhas).trans hkind⟩
  classes d hd := by
    obtain ⟨hroot, hitem, hhas, hkind⟩ := h.classes d hd
    exact ⟨hcc.has _ hroot, by rwa [hcc.items_eq hroot], hcc.has _ hhas,
      (hcc.kind _ hhas).trans hkind⟩

theorem Sound.setTable (h : Sound s c root) {t : ScopeTable}
    (ht : ∀ d ∈ t.defs, Defines c host d.2) : Sound (s.setTable host t) c root where
  tables u hu := by
    rcases List.mem_append.1 hu with hu | hu
    · exact h.tables u (List.mem_filter.1 hu).1
    · obtain rfl := List.mem_singleton.1 hu
      exact ht
  functions := h.functions
  classes := h.classes

theorem mem_declare {defs : Definitions} {name : String} {node : NodeId} {d : String × NodeId}
    (hd : d ∈ defs.declare name node) : d ∈ defs ∨ d = (name, node) := by
  unfold Definitions.declare at hd
  split at hd
  · exact Or.inl hd
  · simpa using hd

theorem mem_tableOf {defs : Definitions} {d : String × NodeId}
    (hd : d ∈ (tableOf parent defs).defs) : d ∈ defs := by
  have hfold : ∀ (defs : Definitions) (t : ScopeTable),
      d ∈ (defs.foldl (fun t d => t.declare d.1 d.2) t).defs → d ∈ t.defs ∨ d ∈ defs := by
    intro defs
    induction defs with
    | nil => exact fun t h => Or.inl h
    | cons e defs ih =>
      intro t h
      rcases ih _ h with h | h
      · rcases mem_declare h with h | h
        · exact Or.inl h
        · exact Or.inr (h ▸ List.mem_cons_self)
      · exact Or.inr (List.mem_cons_of_mem _ h)
  rcases hfold defs _ hd with h | h
  · cases h
  · exact h

theorem mem_namedMembers {kind : DeclKind} {members : List NodeId} {defs : Definitions}
    (h : namedMembers g kind members = .ok defs) {d : String × NodeId} (hd : d ∈ defs) :
    d.2 ∈ members ∧ g.kind d.2 = .decl kind := by
  obtain ⟨m, hm, hname⟩ := mem_of_mapM_eq_ok h d hd
  obtain ⟨name, -, hname⟩ := Run.bind_eq_ok.1 hname
  obtain rfl := Run.pure_eq_ok.1 hname
  simpa using hm

theorem local_namedMembers (g : Graph) (kind : DeclKind) (members : List NodeId) :
    Local (namedMembers g kind members) :=
  local_mapM (fun m => (g.local_requireName m).bind fun _ => local_pure _) _

/-! ## The locals of a function -/

/-- Locals are added, one after the other, as items of a node that is new. -/
theorem mapM_addLocal {scope : NodeId} (hscope : g.has scope = false) :
    ∀ (names : List String) {c : Graph}, Grows g c → c.has scope →
      let out := (names.mapM (addLocal scope)).run c
      Grows g out.2 ∧ (∀ n, c.has n → out.2.has n ∧ out.2.kind n = c.kind n) ∧
        ∀ d ∈ out.1, out.2.has d.2 ∧ out.2.kind d.2 = .decl .varDef
  | [], c, hc, _ => ⟨hc, fun n hn => ⟨hn, rfl⟩, nofun⟩
  | name :: names, c, hc, hhas => by
    let c₁ := (c.add (.decl .varDef) (.str name)).pushItem scope c.fresh
    have hhas₁ : ∀ n, c₁.has n = (c.has n || decide (n = c.fresh)) := by
      intro n
      simp [c₁, Graph.pushItem, has_add]
    have hkind₁ : ∀ n, c₁.kind n = if n = c.fresh then .decl .varDef else c.kind n := by
      intro n
      simp [c₁, Graph.pushItem, kind_add]
    have hold : ∀ n, c.has n → c₁.has n ∧ c₁.kind n = c.kind n := by
      intro n hn
      have hne : n ≠ c.fresh := by
        rintro rfl
        simp [has_fresh] at hn
      simp [hhas₁, hkind₁, hn, hne]
    have hext : Grows g c₁ :=
      (hc.trans (grows_add c _ _)).pushItem hscope (by simp [has_add, hhas]) _
    obtain ⟨hext', hold', hdefs⟩ := mapM_addLocal hscope names hext (hold scope hhas).1
    have hrun : ((name :: names).mapM (addLocal scope)).run c =
        ((name, c.fresh) :: ((names.mapM (addLocal scope)).run c₁).1,
          ((names.mapM (addLocal scope)).run c₁).2) := by
      rw [List.mapM_cons]
      rfl
    rw [hrun]
    refine ⟨hext', fun n hn => ?_, List.forall_mem_cons.2 ⟨?_, hdefs⟩⟩
    · obtain ⟨hn₁, hk₁⟩ := hold n hn
      exact ⟨(hold' n hn₁).1, (hold' n hn₁).2.trans hk₁⟩
    · have hnew : c₁.has c.fresh := by simp [hhas₁]
      exact ⟨(hold' _ hnew).1, (hold' _ hnew).2.trans (by simp [hkind₁])⟩

theorem grows_addLocals (hkind : c.kind func = .decl .function) (names : List String) :
    let out := (addLocals func names).run c
    Grows c out.2 ∧ ∀ d ∈ out.1, out.2.has d.2 ∧ out.2.kind d.2 = .decl .varDef := by
  cases names with
  | nil => exact ⟨Grows.refl c, nofun⟩
  | cons name names =>
    let c₁ := (c.add (.decl .scope) .none).setChild func .locals c.fresh
    have hadd := grows_add c (.decl .scope) .none
    have hfunc : c.has func := has_of_kind hkind nofun
    have hext : Grows c c₁ :=
      hadd.trans (grows_setLocals (hadd.has _ hfunc) ((hadd.kind _ hfunc).trans hkind) _)
    have hfresh : c₁.has c.fresh := by simp [c₁, has_add]
    obtain ⟨hext', -, hdefs⟩ := mapM_addLocal has_fresh (name :: names) hext hfresh
    exact ⟨hext', hdefs⟩

/-! ## Hosts -/

theorem keeps_collectFunction (hs : Sound s c root) (hkind : c.kind func = .decl .function)
    (parent : NodeId) :
    Run.Keeps (s.collectFunction func parent) c (Grows c) fun s' c' =>
      Grows c c' ∧ Sound s' c' root := by
  unfold collectFunction
  refine Run.keeps_get_bind <| Run.keeps_ofExcept_bind (local_namedMembers c _ _)
    (Grows.refl c) fun params hparams => Run.keeps_ofExcept_bind (c.local_requireChild _ _)
      (Grows.refl c) fun body _ => Run.keeps_lift_bind ?_
  generalize newNames _ _ = names
  obtain ⟨hext, hlocals⟩ := grows_addLocals hkind names
  generalize (addLocals func names).run c = out at hext hlocals ⊢
  have hfunc : out.2.has func := hext.has _ (has_of_kind hkind nofun)
  have hclass : out.2.kind func ≠ .decl .classDecl := by
    rw [hext.kind _ (has_of_kind hkind nofun), hkind]
    nofun
  refine Run.keeps_pure ⟨hext, (hs.mono hext).setTable fun d hd => ?_⟩
  rcases List.mem_append.1 hd with hd | hd
  · -- a parameter
    obtain ⟨-, hparam⟩ := mem_namedMembers hparams (mem_tableOf hd)
    refine ⟨hfunc, hext.has _ (has_of_kind hparam nofun), ?_, fun h => absurd h hclass⟩
    rw [hext.kind _ (has_of_kind hparam nofun), hparam]
    rfl
  · -- a local
    obtain ⟨hhas, hlocal⟩ := hlocals d hd
    refine ⟨hfunc, hhas, ?_, fun h => absurd h hclass⟩
    rw [hlocal]
    rfl

theorem keeps_collectFunctions (parent : NodeId) : ∀ (ms : List NodeId) {s : Scopes} {c : Graph},
    Sound s c root →
      Run.Keeps (collectFunctions parent s ms) c (Grows c) fun s' c' =>
        Grows c c' ∧ Sound s' c' root
  | [], _, c, hs => Run.keeps_pure ⟨Grows.refl c, hs⟩
  | m :: ms, s, c, hs => by
    rw [collectFunctions]
    refine Run.keeps_get_bind ?_
    split
    · next hkind =>
      refine (keeps_collectFunction hs hkind parent).bind fun s' c' ⟨hext, hs'⟩ => ?_
      exact (keeps_collectFunctions parent ms hs').mono (fun _ hext' => hext.trans hext')
        fun _ _ ⟨hext', hs''⟩ => ⟨hext.trans hext', hs''⟩
    · exact keeps_collectFunctions parent ms hs

theorem keeps_collectClass {cls : NodeId} (hs : Sound s c root)
    (hkind : c.kind cls = .decl .classDecl) (parent : NodeId) :
    Run.Keeps (s.collectClass cls parent) c (Grows c) fun s' c' =>
      Grows c c' ∧ Sound s' c' root := by
  unfold collectClass
  refine Run.keeps_get_bind <| Run.keeps_ofExcept_bind (local_namedMembers c _ _)
    (Grows.refl c) fun fields hfields => ?_
  refine keeps_collectFunctions cls _ (hs.setTable fun d hd => ?_)
  obtain ⟨hitem, hfield⟩ := mem_namedMembers hfields (mem_tableOf hd)
  refine ⟨has_of_kind hkind nofun, has_of_kind hfield nofun, ?_, fun _ => ⟨hitem, hfield⟩⟩
  rw [hfield]
  rfl

theorem Sound.declareFunction {item : NodeId} (hs : Sound s c root) (hroot : c.has root)
    (hitem : item ∈ c.items root) (hkind : c.kind item = .decl .function) (name : String) :
    Sound { s with functions := s.functions.declare name item } c root where
  tables := hs.tables
  functions d (hd : d ∈ s.functions.declare name item) := by
    rcases mem_declare hd with hd | rfl
    · exact hs.functions d hd
    · exact ⟨hroot, hitem, has_of_kind hkind nofun, hkind⟩
  classes := hs.classes

theorem Sound.declareClass {item : NodeId} (hs : Sound s c root) (hroot : c.has root)
    (hitem : item ∈ c.items root) (hkind : c.kind item = .decl .classDecl) (name : String) :
    Sound { s with classes := s.classes.declare name item } c root where
  tables := hs.tables
  functions := hs.functions
  classes d (hd : d ∈ s.classes.declare name item) := by
    rcases mem_declare hd with hd | rfl
    · exact hs.classes d hd
    · exact ⟨hroot, hitem, has_of_kind hkind nofun, hkind⟩

theorem keeps_collectItem {item : NodeId} (hs : Sound s c root) (hroot : c.has root)
    (hitem : item ∈ c.items root) :
    Run.Keeps (collectItem root s item) c (Grows c) fun s' c' =>
      Grows c c' ∧ Sound s' c' root := by
  unfold collectItem
  refine Run.keeps_get_bind ?_
  split
  · next hkind =>
    exact Run.keeps_ofExcept_bind (c.local_requireName _) (Grows.refl c) fun name _ =>
      keeps_collectFunction (hs.declareFunction hroot hitem hkind name) hkind root
  · next hkind =>
    exact Run.keeps_ofExcept_bind (c.local_requireName _) (Grows.refl c) fun name _ =>
      keeps_collectClass (hs.declareClass hroot hitem hkind name) hkind root
  · exact Run.keeps_pure ⟨Grows.refl c, hs⟩

/-- Collecting the scopes of a program extends its graph and makes sound tables. -/
theorem keeps_collect (g : Graph) (root : NodeId) :
    Run.Keeps (collect root) g (Grows g) fun s c => Grows g c ∧ Sound s c root := by
  unfold collect
  refine Run.keeps_get_bind ?_
  have hempty : Sound (empty.setTable root ⟨[], none⟩) g root := by
    refine Sound.setTable ⟨?_, ?_, ?_⟩ ?_ <;> simp [empty]
  refine Run.keeps_foldlM (Q := fun s c => Grows g c ∧ Sound s c root) ?_ ⟨Grows.refl g, hempty⟩
  rintro item hitem s c ⟨hext, hs⟩
  have hroot : g.has root := by
    by_contra hn
    simp [items, itemEdges, outgoing_of_not_has (by simpa using hn), Edge.byRole] at hitem
  have hitem' : item ∈ c.items root := by rwa [hext.items_eq hroot]
  refine (keeps_collectItem hs (hext.has _ hroot) hitem').mono (fun _ hext' => hext.trans hext') ?_
  rintro s' c' ⟨hext', hs'⟩
  exact ⟨hext.trans hext', hs'⟩

end Scopes

end TypeFlow
