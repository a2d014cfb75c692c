import TypeFlow.Proofs.Reference.Answers
import TypeFlow.Proofs.Scope.Collect
import TypeFlow.Proofs.Scope.Members
/-!
# What collecting scopes reads and what it adds

Tying references and hanging locals below functions change nothing that collecting scopes reads: the
members of hosts and the names that bodies write are read as before (`Scopes.Rereads`). What is
added are scope nodes and definitions of locals, which lead to no node that was there
(`Scopes.Sown`), and a function that gets any has no other locals then (`sown_addLocals`).
-/

namespace TypeFlow

namespace Scopes

open TypeFlow.Graph Program

variable {g h k c : Graph} {f body scope n d : NodeId} {name : String} {names : List String}

/-! ## What collecting reads -/

/-- An edge that collecting scopes reads: neither a tie nor one to the locals of a function. -/
def isRead (g : Graph) (n : NodeId) (e : Edge) : Bool := e.role ≠ .ref && g.isFixed n e

/-- Collecting scopes reads the nodes of one graph in another one as it does here. -/
structure Rereads (g h : Graph) : Prop where
  has : ∀ n, g.has n → h.has n
  kind : ∀ n, g.has n → ∀ k, Reference.isSteady k → (h.kind n = k ↔ g.kind n = k)
  payload : ∀ n, g.has n → h.payload n = g.payload n
  outgoing : ∀ n, g.has n →
    (h.outgoing n).filter (isRead g n) = (g.outgoing n).filter (isRead g n)

namespace Rereads

theorem refl (g : Graph) : Rereads g g :=
  ⟨fun _ h => h, fun _ _ _ _ => Iff.rfl, fun _ _ => rfl, fun _ _ => rfl⟩

variable (hgh : Rereads g h)
include hgh

theorem isFixed_eq (hn : g.has n) : h.isFixed n = g.isFixed n := by
  funext e
  rw [isFixed, isFixed, decide_eq_decide.2 (hgh.kind n hn (.decl .function) rfl)]

theorem grows (hhk : Grows h k) : Rereads g k where
  has n hn := hhk.has n (hgh.has n hn)
  kind n hn q hq := by rw [hhk.kind n (hgh.has n hn), hgh.kind n hn q hq]
  payload n hn := (hhk.payload n (hgh.has n hn)).trans (hgh.payload n hn)
  outgoing n hn := by
    have hsplit : ∀ es : List Edge,
        es.filter (isRead g n) = (es.filter (h.isFixed n)).filter (·.role ≠ .ref) := by
      intro es
      rw [List.filter_filter, hgh.isFixed_eq hn]
      rfl
    rw [hsplit, hhk.outgoing n (hgh.has n hn), ← hsplit, hgh.outgoing n hn]

/-- What does not tell the kinds apart that ties change is the same of both kinds. -/
theorem kind_congr (hn : g.has n) {p : NodeKind → Bool}
    (hp : ∀ q, Reference.isSteady q = false → p q = false) : p (h.kind n) = p (g.kind n) := by
  by_cases hsteady : Reference.isSteady (g.kind n)
  · rw [(hgh.kind n hn _ hsteady).2 rfl]
  · have hsteady' : ¬Reference.isSteady (h.kind n) := fun hs =>
      hsteady ((hgh.kind n hn _ hs).1 rfl ▸ hs)
    rw [hp _ (by simpa using hsteady'), hp _ (by simpa using hsteady)]

theorem isScopeHost_eq (hn : g.has n) : (h.kind n).isScopeHost = (g.kind n).isScopeHost := by
  refine hgh.kind_congr hn fun q hq => ?_
  cases q with
  | decl q => cases hq
  | _ => rfl

theorem isWrite_eq (hn : g.has n) : isWrite (h.kind n) = isWrite (g.kind n) := by
  refine hgh.kind_congr hn fun q hq => ?_
  cases q with
  | stmt q => cases hq
  | _ => rfl

theorem name?_eq (hn : g.has n) : h.name? n = g.name? n := by
  rw [Graph.name?, Graph.name?, hgh.payload n hn]

theorem requireName_eq (hn : g.has n) : h.requireName n = g.requireName n := by
  rw [requireName, requireName, hgh.name?_eq hn]

/-- Edges of a role that is read are found as before. -/
theorem filter_eq (hn : g.has n) {p : Edge → Bool} (hp : ∀ e, p e → isRead g n e) :
    (h.outgoing n).filter p = (g.outgoing n).filter p := by
  have hsplit : ∀ es : List Edge, es.filter p = (es.filter (isRead g n)).filter p := by
    intro es
    rw [List.filter_filter]
    refine List.filter_congr fun e _ => ?_
    cases he : p e with
    | false => rfl
    | true => rw [hp e he, Bool.true_and]
  rw [hsplit, hgh.outgoing n hn, ← hsplit]

theorem items_eq (hn : g.has n) : h.items n = g.items n := by
  rw [items, items, itemEdges, itemEdges, hgh.filter_eq hn fun e he => ?_]
  cases hr : e.role <;> simp_all [isRead, isFixed, Role.isItem, Role.index?]

theorem child?_eq {r : Role} (hn : g.has n) (hr : r ≠ .locals) (href : r ≠ .ref) :
    h.child? n r = g.child? n r := by
  have hfind : ∀ es : List Edge, es.find? (·.role = r) = (es.filter (·.role = r)).head? := by
    intro es
    rw [List.head?_filter]
  rw [child?, child?, hfind, hgh.filter_eq hn fun e he => ?_, ← hfind]
  obtain rfl := of_decide_eq_true he
  simp [isRead, isFixed, hr, href]

variable (hg : g.WellKept)
include hg

theorem namedMembers_eq (hn : g.has n) (kind : DeclKind) :
    namedMembers h kind (h.items n) = namedMembers g kind (g.items n) := by
  have hmember : ∀ m ∈ g.items n, g.has m := fun m hm => hg.has_item hm
  have hfilter : (g.items n).filter (fun m => h.kind m = .decl kind) =
      (g.items n).filter fun m => g.kind m = .decl kind :=
    List.filter_congr fun m hm => decide_eq_decide.2 (hgh.kind m (hmember m hm) (.decl kind) rfl)
  rw [namedMembers, namedMembers, hgh.items_eq hn, hfilter]
  refine Run.mapM_congr fun m hm => ?_
  rw [hgh.requireName_eq (hmember m (List.mem_filter.1 hm).1)]

/-- A search from the body of a function does not come past another function, so that it reads the
same statements. -/
theorem writtenNames_eq (hbody : g.has body) (hkind : g.kind body ≠ .decl .function) :
    writtenNames h body = writtenNames g body := by
  let search : Search := { Search.down body with prune := fun n => (g.kind n).isScopeHost }
  let search' : Search := { Search.down body with prune := fun n => (h.kind n).isScopeHost }
  have hhas : ∀ n, g.has n → ∀ m ∈ g.below search n, g.has m := by
    intro n _ m hm
    unfold below at hm
    split at hm
    · obtain ⟨e, he, rfl⟩ := List.mem_map.1 hm
      exact hg.has_target (List.mem_filter.1 (Edge.mem_byRole.1 he)).1
    · cases hm
  have hnext : ∀ n, g.has n → h.below search' n = g.below search n := fun n hn => by
    have hexpands : search'.expands n = search.expands n := by
      simp only [Search.expands, search, search', Search.down, hgh.isScopeHost_eq hn]
    rw [below, below, hexpands]
    split
    · next hexp =>
      have hfunction : g.kind n ≠ .decl .function := by
        intro hfunction
        rw [Search.expands, Bool.or_eq_true, decide_eq_true_eq] at hexp
        have hexp : n = body ∨ (!(g.kind n).isScopeHost) = true := hexp
        rw [hfunction] at hexp
        obtain rfl := hexp.resolve_right (by decide)
        exact hkind hfunction
      have hsame : (h.outgoing n).filter (·.role.isStructural) =
          (g.outgoing n).filter (·.role.isStructural) := by
        refine hgh.filter_eq hn fun e he => ?_
        cases hr : e.role <;> simp_all [isRead, isFixed, Role.isStructural]
      change List.map _ (Edge.byRole ((h.outgoing n).filter (·.role.isStructural))) = _
      rw [hsame]
      rfl
    · rfl
  have hstart : ∀ n ∈ [body], g.has n := fun n hn => List.mem_singleton.1 hn ▸ hbody
  have hwalk : Walk (g.below search) [] [body] (g.visits search) := walk_visits_down rfl rfl
  have hvisits : h.visits search' = g.visits search :=
    (walk_visits_down rfl rfl).functional (hwalk.congr hhas hnext hstart)
  have hvisited : ∀ n ∈ g.visits search, g.has n := hwalk.sound hhas (by simp) hstart
  have hstmts : (h.collect search' fun n => isWrite (h.kind n)) =
      g.collect search fun n => isWrite (g.kind n) := by
    rw [Graph.collect, Graph.collect, hvisits]
    exact List.filter_congr fun n hn => hgh.isWrite_eq (hvisited n hn)
  change (h.collect search' fun n => isWrite (h.kind n)).filterMap (writtenName? h) = _
  rw [hstmts]
  refine List.filterMap_congr fun n hn => ?_
  have hn : g.has n := hvisited n (List.mem_filter.1 hn).1
  rw [writtenName?, writtenName?, hgh.child?_eq (r := .target) hn (by decide) (by decide)]
  cases htarget : g.child? n .target with
  | none => rfl
  | some target =>
    have htarget : g.has target := hg.has_target (mem_of_child? htarget)
    simp only [hgh.kind target htarget (.expr .ident) rfl, hgh.name?_eq htarget]

end Rereads

/-! ## What collecting adds -/

/-- A graph that grew by scope nodes and definitions of locals, which lead to such nodes only. -/
structure Sown (g c : Graph) : Prop extends Grows g c where
  made : ∀ n, g.has n = false → c.has n → c.kind n = .decl .scope ∨ c.kind n = .decl .varDef
  inner : ∀ n, g.has n = false → ∀ e ∈ c.outgoing n, e.role.isItem ∧ g.has e.node = false
  closed : (∀ n, ∀ e ∈ g.outgoing n, g.has e.node) → ∀ n, ∀ e ∈ c.outgoing n, c.has e.node

/-- The scope nodes of a function. -/
def scopesOf (g : Graph) (n : NodeId) : List NodeId :=
  ((g.outgoing n).filter (·.role = .locals)).map (·.node)

theorem mem_scopesOf : d ∈ scopesOf g n ↔ ⟨.locals, d⟩ ∈ g.outgoing n := by
  simp only [scopesOf, List.mem_map, List.mem_filter, decide_eq_true_eq]
  constructor
  · rintro ⟨⟨r, m⟩, ⟨he, rfl⟩, rfl⟩
    exact he
  · exact fun he => ⟨_, ⟨he, rfl⟩, rfl⟩

theorem length_scopesOf (hg : g.WellKept) (n : NodeId) : (scopesOf g n).length ≤ 1 := by
  have hcount := List.nodup_iff_count_le_one.1 (hg.unique n) .locals
  rw [List.count, List.countP_map, List.countP_eq_length_filter] at hcount
  rw [scopesOf, List.length_map]
  convert hcount using 4
  exact (beq_eq_decide _ _).symm

namespace Sown

theorem not_has (h : Sown g c) (hn : c.has n = false) : g.has n = false := by
  by_contra hg
  rw [h.has n (by simpa using hg)] at hn
  cases hn

theorem refl (g : Graph) : Sown g g where
  toGrows := Grows.refl g
  made n hn hn' := by
    rw [hn] at hn'
    cases hn'
  inner n hn e he := by
    rw [outgoing_of_not_has hn] at he
    cases he
  closed h := h

theorem trans (h : Sown g c) (h' : Sown c k) : Sown g k where
  toGrows := h.toGrows.trans h'.toGrows
  made n hn hk := by
    cases hc : c.has n with
    | true =>
      rw [h'.kind n hc]
      exact h.made n hn hc
    | false => exact h'.made n hc hk
  inner n hn e he := by
    cases hc : c.has n with
    | true =>
      -- a new node is no function, so that all its edges stay
      have hfixed : c.isFixed n e := by
        rcases h.made n hn hc with hkind | hkind <;> simp [isFixed, hkind]
      have hmem : e ∈ (k.outgoing n).filter (c.isFixed n) := List.mem_filter.2 ⟨he, hfixed⟩
      rw [h'.outgoing n hc] at hmem
      exact h.inner n hn e (List.mem_filter.1 hmem).1
    | false =>
      obtain ⟨hitem, hnode⟩ := h'.inner n hc e he
      exact ⟨hitem, h.not_has hnode⟩
  closed hg := h'.closed (h.closed hg)

/-- A local is hung below a scope node that is new itself. -/
theorem addLocal (h : Sown g c) (hnew : g.has scope = false) (hscope : c.has scope)
    (name : String) :
    let out := (Scopes.addLocal scope name).run c
    Sown g out.2 ∧ out.2.has scope ∧ ∀ n, n ≠ scope → out.2.outgoing n = c.outgoing n := by
  let c₁ := c.add (.decl .varDef) (.str name)
  have hscope₁ : c₁.has scope := by simp [c₁, has_add, hscope]
  have hout : ∀ n, (c₁.pushItem scope c.fresh).outgoing n = if n = scope then
      c.outgoing n ++ [⟨.item (c₁.nextIndex scope), c.fresh⟩] else c.outgoing n := fun n => by
    rw [Graph.pushItem, outgoing_link hscope₁, outgoing_add]
  have hhas : ∀ n, (c₁.pushItem scope c.fresh).has n = (c.has n || decide (n = c.fresh)) :=
    fun n => by rw [Graph.pushItem, has_link, has_add]
  refine ⟨⟨(h.toGrows.trans (grows_add c _ _)).pushItem hnew hscope₁ _, fun n hn hn' => ?_,
    fun n hn e he => ?_, fun hg n e he => ?_⟩, ?_, fun n hn => ?_⟩
  · change (c₁.pushItem scope c.fresh).kind n = _ ∨ (c₁.pushItem scope c.fresh).kind n = _
    rw [Graph.pushItem, kind_link, kind_add]
    split
    · exact Or.inr rfl
    · next hne =>
      exact h.made n hn (by simpa [hne] using (hhas n).symm.trans hn')
  · change e ∈ (c₁.pushItem scope c.fresh).outgoing n at he
    rw [hout] at he
    split at he
    · rcases List.mem_append.1 he with he | he
      · exact h.inner n hn e he
      · rw [List.mem_singleton.1 he]
        exact ⟨rfl, h.not_has has_fresh⟩
    · exact h.inner n hn e he
  · have hold : e ∈ c.outgoing n → c.has e.node := h.closed hg n e
    change e ∈ (c₁.pushItem scope c.fresh).outgoing n at he
    change (c₁.pushItem scope c.fresh).has e.node
    rw [hhas]
    rw [hout] at he
    split at he
    · rcases List.mem_append.1 he with he | he
      · rw [hold he, Bool.true_or]
      · simp [List.mem_singleton.1 he]
    · rw [hold he, Bool.true_or]
  · exact (hhas scope).trans (by rw [hscope, Bool.true_or])
  · exact (hout n).trans (if_neg hn)

theorem mapM_addLocal (hnew : g.has scope = false) : ∀ (names : List String) {c : Graph},
    Sown g c → c.has scope →
      let out := (names.mapM (Scopes.addLocal scope)).run c
      Sown g out.2 ∧ out.1.map Prod.fst = names ∧
        ∀ n, n ≠ scope → out.2.outgoing n = c.outgoing n
  | [], _, h, _ => ⟨h, rfl, fun _ _ => rfl⟩
  | name :: names, c, h, hscope => by
    obtain ⟨h₁, hscope₁, hout₁⟩ := h.addLocal hnew hscope name
    obtain ⟨h', hnames, hout⟩ := mapM_addLocal hnew names h₁ hscope₁
    have hrun : ((name :: names).mapM (Scopes.addLocal scope)).run c =
        ((name, c.fresh) :: ((names.mapM (Scopes.addLocal scope)).run
            ((Scopes.addLocal scope name).run c).2).1,
          ((names.mapM (Scopes.addLocal scope)).run ((Scopes.addLocal scope name).run c).2).2) := by
      rw [List.mapM_cons]
      rfl
    rw [hrun]
    exact ⟨h', by rw [List.map_cons, hnames], fun n hn => (hout n hn).trans (hout₁ n hn)⟩

end Sown

/-- Where at most one element passes a test, none is left that passes it after the first. -/
theorem filter_eraseP_self {p : Edge → Bool} : ∀ {es : List Edge}, (es.filter p).length ≤ 1 →
    (es.eraseP p).filter p = []
  | [], _ => rfl
  | e :: es, h => by
    by_cases he : p e
    · rw [List.filter_cons_of_pos he, List.length_cons] at h
      rw [List.eraseP_cons_of_pos he]
      exact List.length_eq_zero_iff.1 (by omega)
    · rw [List.filter_cons_of_neg he] at h
      rw [List.eraseP_cons_of_neg he, List.filter_cons_of_neg he, filter_eraseP_self h]

/-- A function that gets locals gets them below one new scope node, in place of an earlier one. -/
theorem sown_addLocals (hkind : c.kind f = .decl .function) (hone : (scopesOf c f).length ≤ 1)
    (names : List String) :
    let out := (addLocals f names).run c
    Sown c out.2 ∧ out.1.map Prod.fst = names ∧ ∀ n, c.has n →
      scopesOf out.2 n = if n = f ∧ names ≠ [] then [c.fresh] else scopesOf c n := by
  cases names with
  | nil => exact ⟨.refl c, rfl, fun _ _ => by simp [addLocals]; rfl⟩
  | cons name names =>
    let c₁ := (c.add (.decl .scope) .none).setChild f .locals c.fresh
    have hf : c.has f := has_of_kind hkind nofun
    have hadd := grows_add c (.decl .scope) .none
    have hout : ∀ n, c₁.outgoing n = if n = f then
        (c.outgoing n).eraseP (·.role = .locals) ++ [⟨.locals, c.fresh⟩] else c.outgoing n :=
      fun n => by rw [outgoing_setChild_eraseP (hadd.has f hf), outgoing_add]
    have hsown : Sown c c₁ := by
      have hhas : ∀ n, c₁.has n = (c.has n || decide (n = c.fresh)) := fun n => by
        rw [has_setChild, has_add]
      refine ⟨hadd.trans (grows_setLocals (hadd.has f hf) ((hadd.kind f hf).trans hkind) _),
        fun n hn hn' => ?_, fun n hn e he => ?_, fun hg n e he => ?_⟩
      · obtain rfl : n = c.fresh := by simpa [hhas, hn] using hn'
        rw [kind_setChild, kind_add, if_pos rfl]
        exact Or.inl rfl
      · rw [hout, if_neg (by rintro rfl; rw [hf] at hn; cases hn), outgoing_of_not_has hn] at he
        cases he
      · rw [hhas]
        rw [hout] at he
        split at he
        · rcases List.mem_append.1 he with he | he
          · rw [hg n e (List.mem_of_mem_eraseP he), Bool.true_or]
          · simp [List.mem_singleton.1 he]
        · rw [hg n e he, Bool.true_or]
    have hscopes : ∀ n, scopesOf c₁ n = if n = f then [c.fresh] else scopesOf c n := fun n => by
      rw [scopesOf, hout]
      split
      · next h =>
        subst h
        rw [scopesOf, List.length_map] at hone
        rw [List.filter_append, filter_eraseP_self hone]
        rfl
      · rfl
    obtain ⟨hsown', hnames, hkept⟩ :=
      Sown.mapM_addLocal has_fresh (name :: names) hsown (by simp [c₁, has_add])
    refine ⟨hsown', hnames, fun n hn => ?_⟩
    have hne : n ≠ c.fresh := by
      rintro rfl
      rw [has_fresh] at hn
      cases hn
    change scopesOf ((((name :: names).mapM (addLocal c.fresh)).run c₁).2) n = _
    rw [scopesOf, hkept n hne, ← scopesOf, hscopes]
    simp

end Scopes

end TypeFlow
