import TypeFlow.Proofs.Program.Classes
/-!
# Rules that answer

On a resolved program whose declared results denote sets, no rule fails on a table that is over
the classes of the program (`succeeds_asks`): the edges and names that a rule asks for are there,
and canonical sets are joined without complaint.
-/

namespace TypeFlow

open TypeSet Program

/-- A computation with an answer. -/
def Succeeds {α : Type} (x : Except Fault α) : Prop := ∃ a, x = .ok a

section Succeeds

variable {α β : Type} {x : Except Fault α}

theorem succeeds_ok (a : α) : Succeeds (.ok a : Except Fault α) := ⟨a, rfl⟩

theorem succeeds_pure (a : α) : Succeeds (pure a : Except Fault α) := ⟨a, rfl⟩

theorem Succeeds.bind {f : α → Except Fault β} (hx : Succeeds x)
    (hf : ∀ a, x = .ok a → Succeeds (f a)) : Succeeds (x >>= f) := by
  obtain ⟨a, rfl⟩ := hx
  exact hf a rfl

theorem succeeds_mapM {f : α → Except Fault β} {xs : List α} (h : ∀ x ∈ xs, Succeeds (f x)) :
    Succeeds (xs.mapM f) := by
  induction xs with
  | nil => exact succeeds_pure []
  | cons x xs ih =>
    rw [List.mapM_cons]
    exact (h x List.mem_cons_self).bind fun _ _ =>
      (ih fun y hy => h y (List.mem_cons_of_mem _ hy)).bind fun _ _ => succeeds_pure _

end Succeeds

namespace Program

/-- The declared results of functions denote sets. -/
def Declared (g : Graph) (root : NodeId) : Prop :=
  ∀ f type, g.Below root f → g.child? f .returnType = some type → Succeeds (g.annotationSet type)

section Shape

variable {g : Graph} {root n : NodeId}

theorem Resolved.succeeds_requireChild (hg : Resolved g root) (hn : g.Below root n) {r : Role}
    (hr : r ∈ required (g.kind n)) : Succeeds (g.requireChild n r) := by
  obtain ⟨m, hm⟩ := Option.isSome_iff_exists.1 (hg.complete n hn r hr)
  exact ⟨m, by simp [Graph.requireChild, hm]⟩

theorem Resolved.succeeds_requireName (hg : Resolved g root) (hn : g.Below root n)
    (hnamed : isNamed (g.kind n)) : Succeeds (g.requireName n) := by
  obtain ⟨name, hname⟩ := Option.isSome_iff_exists.1 (hg.named n hn hnamed)
  exact ⟨name, by simp [Graph.requireName, hname]⟩

end Shape

end Program

namespace Flow

variable {g : Graph} {root n : NodeId} {t : BoundsTable}

theorem succeeds_join? {sets : List TypeSet} (h : ∀ a ∈ sets, a.Canonical) :
    Succeeds (join? sets) := by
  rw [join?, joinOnto_eq canonical_empty h]
  exact ⟨_, rfl⟩

theorem succeeds_calleeResult (hd : Declared g root) {f : NodeId} (hf : g.Below root f) :
    Succeeds (calleeResult g t f) := by
  unfold calleeResult
  split
  · next type htype => exact hd f type hf htype
  · split <;> exact succeeds_ok _

/-- The classes of a receiver are classes of the program, and so are their members. -/
theorem below_of_member? (ht : t.Over (ClassLeaf g root)) {target m : NodeId}
    {decls : List NodeId} (hr : receiver t target = .classes decls) {kind : DeclKind}
    {name : String} (hm : m ∈ decls.filterMap fun c => member? g c kind name) :
    g.Below root m := by
  obtain ⟨c, hc, hcm⟩ := List.mem_filterMap.1 hm
  obtain ⟨hu, hcls⟩ := cls_mem_of_receiver hr
  have hclass : IsClass g root c := (ht.shown target).2 hu _ (hcls c hc)
  exact hclass.1.of_mem_items (member?_mem_items hcm)

/-- The place of an assignment belongs to the program. -/
theorem below_of_assignment? (hn : g.Below root n) {place value : NodeId}
    (h : assignment? g n = some (place, value)) : g.Below root place := by
  unfold assignment? at h
  split at h
  · obtain ⟨target, htarget, h⟩ := Option.bind_eq_some_iff.1 h
    obtain ⟨value, -, h⟩ := Option.bind_eq_some_iff.1 h
    obtain ⟨rfl, -⟩ := Prod.mk.inj (Option.some.inj h)
    exact hn.of_child? htarget rfl
  · obtain ⟨target, htarget, h⟩ := Option.bind_eq_some_iff.1 h
    obtain ⟨value, -, h⟩ := Option.bind_eq_some_iff.1 h
    obtain ⟨rfl, -⟩ := Prod.mk.inj (Option.some.inj h)
    exact hn.of_child? htarget rfl
  · obtain ⟨value, -, h⟩ := Option.bind_eq_some_iff.1 h
    obtain ⟨rfl, -⟩ := Prod.mk.inj (Option.some.inj h)
    exact hn
  · cases h

variable (hg : Resolved g root) (hn : g.Below root n)

include hg hn

theorem succeeds_methodResult (hd : Declared g root) (ht : t.Sound)
    (hleaves : t.Over (ClassLeaf g root)) (hkind : g.kind n = .expr .methodCall) :
    Succeeds (methodResult g t n) := by
  refine (hg.succeeds_requireName hn (by rw [hkind]; rfl)).bind fun name _ => ?_
  refine (hg.succeeds_requireChild hn (by simp [hkind, required])).bind fun target _ => ?_
  split
  · exact succeeds_pure _
  · exact succeeds_pure _
  · next decls hr =>
    split
    · exact succeeds_pure _
    · refine (succeeds_mapM fun m hm =>
        succeeds_calleeResult hd (below_of_member? hleaves hr hm)).bind fun results hresults => ?_
      rw [joinOnto_eq canonical_empty fun a ha => ?_]
      · exact succeeds_ok _
      · obtain ⟨m, -, hm⟩ := mem_of_mapM_eq_ok hresults a ha
        exact (over_calleeResult (leafFamily_true g) ht.over trivial hm).1

theorem succeeds_callResult (hd : Declared g root) (ht : t.Sound)
    (hleaves : t.Over (ClassLeaf g root)) : Succeeds (callResult g t n) := by
  unfold callResult
  split
  · next hkind =>
    refine (hg.succeeds_requireChild hn (by simp [hkind, required])).bind fun f hf => ?_
    exact succeeds_calleeResult hd (hg.tied n hn f (Graph.requireChild_eq_ok.1 hf)).1
  · next hkind =>
    exact (hg.succeeds_requireChild hn (by simp [hkind, required])).bind fun _ _ => succeeds_pure _
  · next hkind => exact succeeds_methodResult hg hn hd ht hleaves hkind
  · exact succeeds_ok _

theorem succeeds_callBinding (happlies : bindsArgs g n) : Succeeds (callBinding g t n) := by
  unfold callBinding
  split
  · next hkind =>
    exact (hg.succeeds_requireChild hn (by simp [hkind, required])).bind fun _ _ => succeeds_pure _
  · next hkind =>
    exact (hg.succeeds_requireChild hn (by simp [hkind, required])).bind fun _ _ => succeeds_pure _
  · next hcall hinit =>
    have hkind : g.kind n = .expr .methodCall := by
      unfold bindsArgs at happlies
      split at happlies
      · next h => exact (hcall h).elim
      · next h => exact (hinit h).elim
      · assumption
      · cases happlies
    refine (hg.succeeds_requireName hn (by rw [hkind]; rfl)).bind fun name _ => ?_
    refine (hg.succeeds_requireChild hn (by simp [hkind, required])).bind fun target _ => ?_
    split <;> exact succeeds_pure _

theorem succeeds_fieldResult (ht : t.Sound) (hkind : g.kind n = .expr .fieldGet) :
    Succeeds (fieldResult g t n) := by
  refine (hg.succeeds_requireName hn (by rw [hkind]; rfl)).bind fun name _ => ?_
  refine (hg.succeeds_requireChild hn (by simp [hkind, required])).bind fun target _ => ?_
  split
  · exact succeeds_pure _
  · exact succeeds_pure _
  · split
    · exact succeeds_pure _
    · refine succeeds_join? fun a ha => ?_
      obtain ⟨f, -, rfl⟩ := List.mem_map.1 ha
      exact ht.canonical_shown f

theorem succeeds_writtenFields : Succeeds (writtenFields g t n) := by
  unfold writtenFields
  split
  · next hget =>
    refine (hg.succeeds_requireName hn (by rw [hget.1]; rfl)).bind fun name _ => ?_
    refine (hg.succeeds_requireChild hn (by simp [hget.1, required])).bind fun target _ => ?_
    split <;> exact succeeds_pure _
  · exact succeeds_ok _

theorem succeeds_indexRule (ht : t.Sound) (hkind : g.kind n = .expr .index) :
    Succeeds ((indexRule g).asks t n) := by
  refine (hg.succeeds_requireChild hn (by simp [hkind, required])).bind fun container _ => ?_
  dsimp only
  split
  · exact succeeds_pure _
  · next hu =>
    refine (succeeds_join? fun a ha => ?_).bind fun joined? _ => ?_
    · obtain ⟨x, hx, hxa⟩ := List.mem_filterMap.1 ha
      exact (over_elementOf? (leafFamily_true g)
        ((ht.canonical_shown container).proper hu hx) trivial hxa).1
    · cases joined? <;> exact succeeds_pure _

/-- No rule fails where it applies. -/
theorem succeeds_asks (hd : Declared g root) (ht : t.Sound) (hleaves : t.Over (ClassLeaf g root))
    {methods : List NodeId} {r : FlowRule} (hr : r ∈ rules g methods) (happlies : r.applies n) :
    Succeeds (r.asks t n) := by
  simp only [rules, List.mem_cons, List.not_mem_nil, or_false] at hr
  rcases hr with rfl | rfl | rfl | rfl | rfl | rfl | rfl | rfl | rfl | rfl | rfl | rfl | rfl |
    rfl | rfl
  · simp only [literalRule]
    split <;> exact succeeds_ok _
  · simp only [collectionRule]
    split
    · exact succeeds_ok _
    · split
      · exact succeeds_ok _
      · rw [joinElements_eq ht.canonical_shown canonical_empty]
        split <;> exact ⟨_, rfl⟩
  · simp only [selfRule]
    split <;> exact succeeds_ok _
  · exact (succeeds_callResult hg hn hd ht hleaves).bind fun _ _ => succeeds_pure _
  · refine (succeeds_callBinding hg hn happlies).bind fun binding _ => ?_
    cases binding <;> exact succeeds_pure _
  · simp only [binaryRule]
    split
    · next op hkind =>
      refine (hg.succeeds_requireChild hn (by simp [hkind, required])).bind fun left _ => ?_
      refine (hg.succeeds_requireChild hn (by simp [hkind, required])).bind fun right _ => ?_
      split <;> exact succeeds_pure _
    · exact succeeds_ok _
  · simp only [unaryRule]
    split
    · next op hkind =>
      exact (hg.succeeds_requireChild hn (by simp [hkind, required])).bind
        fun _ _ => succeeds_pure _
    · exact succeeds_ok _
  · have hkind : g.kind n = .expr .len := by simpa [lenRule] using happlies
    refine (hg.succeeds_requireChild hn (by simp [hkind, required])).bind fun operand _ => ?_
    dsimp only
    split <;> exact succeeds_pure _
  · exact succeeds_indexRule hg hn ht (by simpa [indexRule] using happlies)
  · obtain ⟨hkind, -⟩ : g.kind n = .expr .fieldGet ∧ g.hasChild n .ref = false := by
      simpa [fieldGetRule] using happlies
    refine (succeeds_fieldResult hg hn ht hkind).bind fun a? _ => ?_
    cases a? <;> exact succeeds_pure _
  · simp only [assignRule]
    split
    · exact succeeds_ok _
    · next place value hassign =>
      split
      · exact succeeds_ok _
      · exact (succeeds_writtenFields hg (below_of_assignment? hn hassign)).bind
          fun _ _ => succeeds_pure _
  · simp only [returnRule]
    split <;> exact succeeds_ok _
  · simp only [acceptRule]
    split <;> exact succeeds_ok _
  · simp only [operatorRule]
    split <;> exact succeeds_ok _
  · have hkind : g.kind n = .stmt .branch ∨ g.kind n = .stmt .whileLoop := by
      simpa [conditionRule] using happlies
    refine (hg.succeeds_requireChild hn ?_).bind fun _ _ => succeeds_pure _
    rcases hkind with h | h <;> simp [h, required]

end Flow

end TypeFlow
