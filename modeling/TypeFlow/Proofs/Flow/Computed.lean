import TypeFlow.Proofs.Flow.Answers
import TypeFlow.Proofs.Flow.Coverage
/-!
# Types that are computed

What an operator, a collection or an element of one yields is computed from its parts by one rule
(`computedBy?`), which asks to show one set of its node, or nothing (`Contributes`), and more for
larger parts (`Contributes.within`). A rule shows something of a node whose types it computes, of
one whose types no rule computes, or of one that values are assigned to (`widens_of_mem`), so that
no other rule shows anything of a computed node that nothing is assigned to (`eq_of_widens`).
-/

namespace TypeFlow

open TypeSet Program

/-- What a rule asks to show of the node it is at: nothing, or a set of types. -/
inductive FlowRule.Contributes (r : FlowRule) (t : BoundsTable) (n : NodeId) : TypeSet → Prop
  | nothing (h : r.asks t n = .ok []) : Contributes r t n .empty
  | types {a : TypeSet} (h : r.asks t n = .ok [.widen n a]) : Contributes r t n a

namespace Flow

/-- The rule that computes what an expression yields from its parts alone. -/
def computedBy? (g : Graph) : NodeKind → Option FlowRule
  | .expr (.binary _) => some (binaryRule g)
  | .expr (.unary _) => some (unaryRule g)
  | .expr .len => some (lenRule g)
  | .expr .listLit | .expr .setLit | .expr .mapLit => some (collectionRule g)
  | .expr .index => some (indexRule g)
  | _ => none

/-- A node below a root that values are assigned to. -/
def IsPlace (g : Graph) (root n : NodeId) : Prop :=
  ∃ m value, g.Below root m ∧ assignment? g m = some (n, value)

theorem isPlace_iff {g : Graph} {root n : NodeId} : IsPlace g root n ↔
    n ∈ (g.visits (.down root)).filterMap fun m => (assignment? g m).map Prod.fst := by
  simp only [IsPlace, List.mem_filterMap, Graph.mem_visits_down, Option.map_eq_some_iff,
    Prod.exists, exists_and_left, exists_and_right, exists_eq_right]

instance (g : Graph) (root n : NodeId) : Decidable (IsPlace g root n) :=
  decidable_of_iff _ isPlace_iff.symm

variable {g : Graph} {root n m : NodeId} {t T : BoundsTable} {r r' : FlowRule}
  {requests : List Request} {a b : TypeSet} {methods : List NodeId}

/-! ## One rule for each node -/

/-- The kinds whose types are computed, each with its rule. -/
theorem computedBy?_eq_some (h : computedBy? g (g.kind n) = some r) :
    (∃ op, g.kind n = .expr (.binary op) ∧ r = binaryRule g) ∨
    (∃ op, g.kind n = .expr (.unary op) ∧ r = unaryRule g) ∨
    (g.kind n = .expr .len ∧ r = lenRule g) ∨
    ((∃ c, literalContainer? (g.kind n) = some c) ∧ r = collectionRule g) ∨
    (g.kind n = .expr .index ∧ r = indexRule g) := by
  unfold computedBy? at h
  split at h <;> cases h <;> simp_all [literalContainer?]

theorem isTypable_of_computedBy? (h : computedBy? g (g.kind n) = some r) :
    (g.kind n).isTypable := by
  unfold computedBy? at h
  split at h <;> first | (cases h; done) | simp_all [NodeKind.isTypable]

theorem mem_rules_of_computedBy? (h : computedBy? g (g.kind n) = some r) :
    r ∈ rules g methods ∧ r.applies n := by
  rcases computedBy?_eq_some h with ⟨op, hk, rfl⟩ | ⟨op, hk, rfl⟩ | ⟨hk, rfl⟩ | ⟨⟨c, hc⟩, rfl⟩ |
    ⟨hk, rfl⟩
  · simp [rules, binaryRule, hk]
  · simp [rules, unaryRule, hk]
  · simp [rules, lenRule, hk]
  · simp [rules, collectionRule, hc]
  · simp [rules, indexRule, hk]

theorem mem_widen_yieldIfAny (h : .widen m a ∈ yieldIfAny n b) : m = n := by
  unfold yieldIfAny at h
  split at h
  · cases h
  · exact (Request.widen.inj (List.mem_singleton.1 h)).1

/-- Such a rule asks for nothing, or to show something of its node. -/
theorem exists_contributes (h : computedBy? g (g.kind n) = some r)
    (hasks : r.asks t n = .ok requests) : ∃ a, r.Contributes t n a := by
  have hshape : requests = [] ∨ ∃ a, requests = [.widen n a] := by
    have hyield : ∀ a, yieldIfAny n a = [] ∨ ∃ b, yieldIfAny n a = [.widen n b] := fun a => by
      unfold yieldIfAny
      split
      · exact Or.inl rfl
      · exact Or.inr ⟨a, rfl⟩
    rcases computedBy?_eq_some h with ⟨op, hk, rfl⟩ | ⟨op, hk, rfl⟩ | ⟨hk, rfl⟩ | ⟨⟨c, hc⟩, rfl⟩ |
      ⟨hk, rfl⟩
    · simp only [binaryRule, hk] at hasks
      obtain ⟨left, -, hasks⟩ := Run.bind_eq_ok.1 hasks
      obtain ⟨right, -, hasks⟩ := Run.bind_eq_ok.1 hasks
      split at hasks
      · exact Or.inl (Run.pure_eq_ok.1 hasks).symm
      · obtain rfl := Run.pure_eq_ok.1 hasks
        exact hyield _
    · simp only [unaryRule, hk] at hasks
      obtain ⟨operand, -, hasks⟩ := Run.bind_eq_ok.1 hasks
      obtain rfl := Run.pure_eq_ok.1 hasks
      exact hyield _
    · obtain ⟨operand, -, hasks⟩ := Run.bind_eq_ok.1 hasks
      dsimp only at hasks
      split at hasks
      · exact Or.inr ⟨_, (Run.pure_eq_ok.1 hasks).symm⟩
      · exact Or.inl (Run.pure_eq_ok.1 hasks).symm
    · simp only [collectionRule, hc] at hasks
      split at hasks
      · exact Or.inr ⟨_, (Except.ok.inj hasks).symm⟩
      · obtain ⟨joined?, -, hasks⟩ := Run.bind_eq_ok.1 hasks
        cases joined? with
        | none => exact Or.inl (Run.pure_eq_ok.1 hasks).symm
        | some joined => exact Or.inr ⟨_, (Run.pure_eq_ok.1 hasks).symm⟩
    · obtain ⟨container, -, hasks⟩ := Run.bind_eq_ok.1 hasks
      dsimp only at hasks
      split at hasks
      · exact Or.inr ⟨_, (Run.pure_eq_ok.1 hasks).symm⟩
      · obtain ⟨joined?, -, hasks⟩ := Run.bind_eq_ok.1 hasks
        cases joined? with
        | none => exact Or.inl (Run.pure_eq_ok.1 hasks).symm
        | some joined => exact Or.inr ⟨_, (Run.pure_eq_ok.1 hasks).symm⟩
  rcases hshape with rfl | ⟨a, rfl⟩
  · exact ⟨.empty, .nothing hasks⟩
  · exact ⟨a, .types hasks⟩

/-- No other rule is at home at a node whose types are computed. -/
theorem kind_of_computedBy? (h : computedBy? g (g.kind n) = some r) :
    literalBase? (g.kind n) = none ∧ g.kind n ≠ .expr .selfRef ∧ isCall (g.kind n) = false ∧
      g.kind n ≠ .expr .fieldGet ∧ g.kind n ≠ .expr .ident ∧ ∀ d, g.kind n ≠ .decl d := by
  unfold computedBy? at h
  split at h <;> first | (cases h; done) | simp_all [literalBase?, isCall]

/-- The places of arguments are declarations. -/
theorem kind_of_binding {lists : List (List NodeId)} (h : callBinding g t n = .ok (.places lists))
    {places : List NodeId} (hplaces : places ∈ lists) {p : NodeId} (hp : p ∈ places) :
    ∃ d, g.kind p = .decl d := by
  have hmember : ∀ {host : NodeId} {d : DeclKind}, p ∈ members g host d →
      ∃ d, g.kind p = .decl d := fun {_ d} hp => ⟨d, by simpa using (List.mem_filter.1 hp).2⟩
  unfold callBinding at h
  split at h
  · obtain ⟨f, -, h⟩ := Run.bind_eq_ok.1 h
    obtain rfl := Binding.places.inj (Run.pure_eq_ok.1 h)
    obtain rfl := List.mem_singleton.1 hplaces
    exact hmember hp
  · obtain ⟨c, -, h⟩ := Run.bind_eq_ok.1 h
    obtain rfl := Binding.places.inj (Run.pure_eq_ok.1 h)
    obtain rfl := List.mem_singleton.1 hplaces
    exact hmember hp
  · obtain ⟨name, -, h⟩ := Run.bind_eq_ok.1 h
    obtain ⟨target, -, h⟩ := Run.bind_eq_ok.1 h
    split at h
    · cases h
    · cases h
    · obtain rfl := Binding.places.inj (Run.pure_eq_ok.1 h)
      obtain ⟨m, -, rfl⟩ := List.mem_map.1 hplaces
      exact hmember hp

/-- What arguments flow into are the places that they are paired with. -/
theorem mem_of_widen_pairArgs {step : NodeId → NodeId → List Request}
    (hstep : ∀ place arg p a, .widen p a ∈ step place arg → p = place)
    {places args : List NodeId}
    (h : .widen m a ∈ pairArgs step places args) : m ∈ places := by
  obtain ⟨pair, hpair, h⟩ := List.mem_flatMap.1 h
  rw [hstep _ _ _ _ h]
  exact (List.of_mem_zip hpair).1

theorem eq_of_widen_feed {place arg p : NodeId} (h : .widen p a ∈ feed t place arg) : p = place :=
  mem_widen_yieldIfAny h

theorem eq_of_widen_bindArg {place arg p : NodeId} (h : .widen p a ∈ bindArg t place arg) :
    p = place := by
  rcases List.mem_append.1 h with h | h
  · exact eq_of_widen_feed h
  · cases List.mem_singleton.1 h

/-- The fields that a write reaches are declarations. -/
theorem kind_of_writtenFields {fields : List NodeId} (h : writtenFields g t n = .ok fields)
    (hm : m ∈ fields) : ∃ d, g.kind m = .decl d := by
  unfold writtenFields at h
  split at h
  · obtain ⟨name, -, h⟩ := Run.bind_eq_ok.1 h
    obtain ⟨base, -, h⟩ := Run.bind_eq_ok.1 h
    split at h
    · obtain rfl := Run.pure_eq_ok.1 h
      obtain ⟨c, -, hc⟩ := List.mem_filterMap.1 hm
      exact ⟨.field, by simpa using (List.mem_filter.1 (List.mem_of_find?_eq_some hc)).2⟩
    · obtain rfl := Run.pure_eq_ok.1 h
      cases hm
  · obtain rfl := Except.ok.inj h
    cases hm

/-- What is returned flows into a return slot. -/
theorem kind_of_returned? (hg : Resolved g root) (hn : g.Below root n) {slot value : NodeId}
    (h : returned? g n = some (slot, value)) : g.kind slot = .decl .returnSlot := by
  unfold returned? at h
  split at h
  · obtain ⟨value', -, h⟩ := Option.bind_eq_some_iff.1 h
    obtain ⟨f, hf, h⟩ := Option.bind_eq_some_iff.1 h
    obtain ⟨slot', hslot, h⟩ := Option.bind_eq_some_iff.1 h
    obtain ⟨rfl, -⟩ := Prod.mk.inj (Option.some.inj h)
    obtain ⟨hbelow, hkind⟩ := hg.below_enclosing hn hf
    have hfits := hg.fits_child hbelow hslot rfl
    rw [hkind] at hfits
    exact fits_returnSlot.1 hfits
  · cases h

/-- Seeding shows something of parameters and of identifiers alone. -/
theorem kind_of_widen_seedNode {called : List NodeId} {allow : Bool}
    (h : seedNode g called allow n = .ok requests) (hq : .widen m a ∈ requests) :
    g.kind m = .decl .param ∨ g.kind m = .expr .ident := by
  unfold seedNode at h
  split at h
  · next hkind =>
    have heq : m = n := by
      split at h
      · obtain ⟨b, -, h⟩ := Run.bind_eq_ok.1 h
        obtain rfl := Run.pure_eq_ok.1 h
        simp at hq
        exact hq.1
      · obtain rfl := Except.ok.inj h
        split at hq
        · unfold seedUndeclared at hq
          split at hq
          · split at hq
            · cases hq
            · exact (Request.widen.inj (List.mem_singleton.1 hq)).1
          · cases hq
        · cases hq
    exact Or.inl (heq ▸ hkind)
  · split at h
    · obtain ⟨b, -, h⟩ := Run.bind_eq_ok.1 h
      obtain rfl := Run.pure_eq_ok.1 h
      cases List.mem_singleton.1 hq
    · obtain rfl := Except.ok.inj h
      cases hq
  · split at h
    · obtain ⟨b, -, h⟩ := Run.bind_eq_ok.1 h
      obtain rfl := Run.pure_eq_ok.1 h
      cases List.mem_singleton.1 hq
    · obtain rfl := Except.ok.inj h
      cases hq
  · next hkind =>
    split at h
    · obtain rfl := Except.ok.inj h
      exact Or.inr ((Request.widen.inj (List.mem_singleton.1 hq)).1 ▸ hkind)
    · obtain rfl := Except.ok.inj h
      cases hq
  · obtain rfl := Except.ok.inj h
    cases hq

/-- First assignments only narrow. -/
theorem not_widen_seedInit (h : seedInit g n = .ok requests) : .widen m a ∉ requests := by
  intro hq
  unfold seedInit at h
  split at h
  · obtain ⟨b, -, h⟩ := Run.bind_eq_ok.1 h
    obtain rfl := Run.pure_eq_ok.1 h
    cases List.mem_singleton.1 hq
  · obtain rfl := Except.ok.inj h
    cases hq

/-! ## What rules show something of -/

/-- A node of which a rule may show something where it is tried: the rule computes its types there,
or no rule computes them, or values are assigned to it. -/
inductive Widens (g : Graph) (root : NodeId) (r : FlowRule) (n m : NodeId) : Prop
  | computed (hself : n = m) (hrule : computedBy? g (g.kind m) = some r)
  | uncomputed (hrule : ∀ r', computedBy? g (g.kind m) ≠ some r')
  | assigned (hplace : IsPlace g root m)

theorem Widens.of_decl {d : DeclKind} (h : g.kind m = .decl d) : Widens g root r n m :=
  .uncomputed fun _ hrule => (kind_of_computedBy? hrule).2.2.2.2.2 d h

theorem widens_of_computedBy? (hrule : computedBy? g (g.kind n) = some r)
    (hasks : r.asks t n = .ok requests) (hq : .widen m a ∈ requests) : Widens g root r n m := by
  obtain ⟨b, hb⟩ := exists_contributes hrule hasks
  cases hb with
  | nothing h =>
    obtain rfl := Except.ok.inj (hasks.symm.trans h)
    cases hq
  | types h =>
    obtain rfl := Except.ok.inj (hasks.symm.trans h)
    obtain ⟨rfl, -⟩ := Request.widen.inj (List.mem_singleton.1 hq)
    exact .computed rfl hrule

theorem widens_literalRule (happlies : (literalRule g).applies n)
    (hasks : (literalRule g).asks t n = .ok requests) (hq : .widen m a ∈ requests) :
    Widens g root (literalRule g) n m := by
  obtain ⟨b, hb⟩ := Option.isSome_iff_exists.1 happlies
  simp only [literalRule, hb] at hasks
  obtain rfl := Except.ok.inj hasks
  obtain ⟨rfl, -⟩ := Request.widen.inj (List.mem_singleton.1 hq)
  refine .uncomputed fun r hrule => ?_
  cases hb.symm.trans (kind_of_computedBy? hrule).1

theorem widens_selfRule (happlies : (selfRule g).applies n)
    (hasks : (selfRule g).asks t n = .ok requests) (hq : .widen m a ∈ requests) :
    Widens g root (selfRule g) n m := by
  have hkind : g.kind n = .expr .selfRef := by simpa [selfRule] using happlies
  simp only [selfRule] at hasks
  split at hasks
  · obtain rfl := Except.ok.inj hasks
    obtain ⟨rfl, -⟩ := Request.widen.inj (List.mem_singleton.1 hq)
    exact .uncomputed fun r hrule => (kind_of_computedBy? hrule).2.1 hkind
  · obtain rfl := Except.ok.inj hasks
    cases hq

theorem widens_callResultRule (happlies : (callResultRule g).applies n)
    (hasks : (callResultRule g).asks t n = .ok requests) (hq : .widen m a ∈ requests) :
    Widens g root (callResultRule g) n m := by
  obtain ⟨result, -, hasks⟩ := Run.bind_eq_ok.1 hasks
  obtain rfl := Run.pure_eq_ok.1 hasks
  obtain rfl := mem_widen_yieldIfAny hq
  refine .uncomputed fun r hrule => ?_
  cases happlies.symm.trans (kind_of_computedBy? hrule).2.2.1

/-- Arguments flow into parameters and fields. -/
theorem widens_callArgsRule (hasks : (callArgsRule g methods).asks t n = .ok requests)
    (hq : .widen m a ∈ requests) : Widens g root (callArgsRule g methods) n m := by
  obtain ⟨binding, hbinding, hasks⟩ := Run.bind_eq_ok.1 hasks
  cases binding with
  | pending =>
    obtain rfl := Run.pure_eq_ok.1 hasks
    cases hq
  | anyMethod name =>
    obtain rfl := Run.pure_eq_ok.1 hasks
    obtain ⟨f, -, hq⟩ := List.mem_flatMap.1 hq
    have hmember := mem_of_widen_pairArgs (fun _ _ _ _ => eq_of_widen_feed) hq
    exact .of_decl (by simpa using (List.mem_filter.1 hmember).2)
  | places lists =>
    obtain rfl := Run.pure_eq_ok.1 hasks
    obtain ⟨places, hplaces, hq⟩ := List.mem_flatMap.1 hq
    have hmem := mem_of_widen_pairArgs (fun _ _ _ _ => eq_of_widen_bindArg) hq
    obtain ⟨d, hd⟩ := kind_of_binding hbinding hplaces hmem
    exact .of_decl hd

theorem widens_fieldGetRule (happlies : (fieldGetRule g).applies n)
    (hasks : (fieldGetRule g).asks t n = .ok requests) (hq : .widen m a ∈ requests) :
    Widens g root (fieldGetRule g) n m := by
  obtain ⟨hkind, -⟩ : g.kind n = .expr .fieldGet ∧ g.hasChild n .ref = false := by
    simpa [fieldGetRule] using happlies
  obtain ⟨types?, -, hasks⟩ := Run.bind_eq_ok.1 hasks
  cases types? with
  | none =>
    obtain rfl := Run.pure_eq_ok.1 hasks
    cases hq
  | some types =>
    obtain rfl := Run.pure_eq_ok.1 hasks
    obtain ⟨rfl, -⟩ := Request.widen.inj (List.mem_singleton.1 hq)
    exact .uncomputed fun r hrule => (kind_of_computedBy? hrule).2.2.2.1 hkind

/-- Values flow into what they are assigned to, and into fields. -/
theorem widens_assignRule (hn : g.Below root n) (happlies : (assignRule g).applies n)
    (hasks : (assignRule g).asks t n = .ok requests) (hq : .widen m a ∈ requests) :
    Widens g root (assignRule g) n m := by
  obtain ⟨⟨target, value⟩, hassign⟩ := Option.isSome_iff_exists.1 happlies
  simp only [assignRule, hassign] at hasks
  split at hasks
  · obtain rfl := Except.ok.inj hasks
    cases hq
  · obtain ⟨fields, hfields, hasks⟩ := Run.bind_eq_ok.1 hasks
    obtain rfl := Run.pure_eq_ok.1 hasks
    obtain ⟨place, hmem, heq⟩ := List.mem_map.1 hq
    obtain ⟨rfl, -⟩ := Request.widen.inj heq
    rcases List.mem_cons.1 hmem with rfl | hmem
    · exact .assigned ⟨n, value, hn, hassign⟩
    · obtain ⟨d, hd⟩ := kind_of_writtenFields hfields hmem
      exact .of_decl hd

theorem widens_returnRule (hg : Resolved g root) (hn : g.Below root n)
    (happlies : (returnRule g).applies n) (hasks : (returnRule g).asks t n = .ok requests)
    (hq : .widen m a ∈ requests) : Widens g root (returnRule g) n m := by
  obtain ⟨⟨slot, value⟩, hreturned⟩ := Option.isSome_iff_exists.1 happlies
  simp only [returnRule, hreturned] at hasks
  obtain rfl := Except.ok.inj hasks
  obtain rfl := mem_widen_yieldIfAny hq
  exact .of_decl (kind_of_returned? hg hn hreturned)

/-- What values, operators and conditions may yield is narrowed only. -/
theorem not_widen_acceptRule (hasks : (acceptRule g).asks t n = .ok requests) :
    .widen m a ∉ requests := by
  intro hq
  simp only [acceptRule] at hasks
  split at hasks
  · obtain rfl := Except.ok.inj hasks
    cases hq
  · obtain rfl := Except.ok.inj hasks
    cases List.mem_singleton.1 hq

theorem not_widen_operatorRule (hasks : (operatorRule g).asks t n = .ok requests) :
    .widen m a ∉ requests := by
  intro hq
  simp only [operatorRule] at hasks
  split at hasks
  · obtain rfl := Except.ok.inj hasks
    cases List.mem_singleton.1 hq
  · obtain rfl := Except.ok.inj hasks
    cases hq

theorem not_widen_conditionRule (hasks : (conditionRule g).asks t n = .ok requests) :
    .widen m a ∉ requests := by
  intro hq
  obtain ⟨cond, -, hasks⟩ := Run.bind_eq_ok.1 hasks
  obtain rfl := Run.pure_eq_ok.1 hasks
  cases List.mem_singleton.1 hq

/-- The rules of operators, collections, lengths and elements compute types. -/
theorem computedBy?_of_applies (hr : r ∈ [collectionRule g, binaryRule g, unaryRule g, lenRule g,
    indexRule g]) (happlies : r.applies n) : computedBy? g (g.kind n) = some r := by
  simp only [List.mem_cons, List.not_mem_nil, or_false] at hr
  rcases hr with rfl | rfl | rfl | rfl | rfl
  · simp only [collectionRule, literalContainer?] at happlies
    split at happlies <;> first | (cases happlies; done) | simp_all [computedBy?]
  · simp only [binaryRule] at happlies
    split at happlies
    · next op hkind => rw [hkind, computedBy?]
    · cases happlies
  · simp only [unaryRule] at happlies
    split at happlies
    · next op hkind => rw [hkind, computedBy?]
    · cases happlies
  · have hkind : g.kind n = .expr .len := by simpa [lenRule] using happlies
    rw [hkind, computedBy?]
  · have hkind : g.kind n = .expr .index := by simpa [indexRule] using happlies
    rw [hkind, computedBy?]

/-- Whatever a rule asks to show is shown of such a node. -/
theorem widens_of_mem (hg : Resolved g root) (hn : g.Below root n) (hr : r ∈ rules g methods)
    (happlies : r.applies n) (hasks : r.asks t n = .ok requests) (hq : .widen m a ∈ requests) :
    Widens g root r n m := by
  have hown : ∀ r ∈ [collectionRule g, binaryRule g, unaryRule g, lenRule g, indexRule g],
      r.applies n → r.asks t n = .ok requests → Widens g root r n m := fun r hr happlies hasks =>
    widens_of_computedBy? (computedBy?_of_applies hr happlies) hasks hq
  simp only [rules, List.mem_cons, List.not_mem_nil, or_false] at hr
  rcases hr with rfl | rfl | rfl | rfl | rfl | rfl | rfl | rfl | rfl | rfl | rfl | rfl | rfl |
    rfl | rfl
  · exact widens_literalRule happlies hasks hq
  · exact hown _ (by simp) happlies hasks
  · exact widens_selfRule happlies hasks hq
  · exact widens_callResultRule happlies hasks hq
  · exact widens_callArgsRule hasks hq
  · exact hown _ (by simp) happlies hasks
  · exact hown _ (by simp) happlies hasks
  · exact hown _ (by simp) happlies hasks
  · exact hown _ (by simp) happlies hasks
  · exact widens_fieldGetRule happlies hasks hq
  · exact widens_assignRule hn happlies hasks hq
  · exact widens_returnRule hg hn happlies hasks hq
  · exact absurd hq (not_widen_acceptRule hasks)
  · exact absurd hq (not_widen_operatorRule hasks)
  · exact absurd hq (not_widen_conditionRule hasks)

/-- A node whose types are computed and that nothing is assigned to is widened by its rule alone,
and by that only where it stands. -/
theorem eq_of_widens (hg : Resolved g root) (hn : g.Below root n)
    (hrule : computedBy? g (g.kind m) = some r) (hplace : ¬IsPlace g root m)
    (hr : r' ∈ rules g methods) (happlies : r'.applies n) (hasks : r'.asks t n = .ok requests)
    (hq : .widen m a ∈ requests) : n = m ∧ r' = r := by
  cases widens_of_mem hg hn hr happlies hasks hq with
  | computed hself hrule' => exact ⟨hself, Option.some.inj (hrule'.symm.trans hrule)⟩
  | uncomputed hnone => exact absurd hrule (hnone r)
  | assigned hplace' => exact absurd hplace' hplace

end Flow

namespace FlowRule

variable {g : Graph} {n : NodeId} {t T : BoundsTable} {r : FlowRule} {a b : TypeSet}

theorem Contributes.unique (ha : r.Contributes t n a) (hb : r.Contributes t n b) : a = b := by
  cases ha with
  | nothing ha =>
    cases hb with
    | nothing => rfl
    | types hb => cases Except.ok.inj (ha.symm.trans hb)
  | types ha =>
    cases hb with
    | nothing hb => cases Except.ok.inj (ha.symm.trans hb)
    | types hb =>
      exact (Request.widen.inj (List.head_eq_of_cons_eq (Except.ok.inj (ha.symm.trans hb)))).2

/-- Larger operands contribute more. -/
theorem Contributes.within (h : Flow.computedBy? g (g.kind n) = some r) (ht : t.Sound)
    (hT : T.Sound) (hunder : t.Under T) (ha : r.Contributes t n a) (hb : r.Contributes T n b) :
    a.Within b := by
  have hcovered : ∀ {qs ps : List Request}, r.asks t n = .ok qs → r.asks T n = .ok ps →
      Covered qs ps := by
    intro qs ps hq hp
    rcases Flow.computedBy?_eq_some h with ⟨op, -, rfl⟩ | ⟨op, -, rfl⟩ | ⟨-, rfl⟩ | ⟨-, rfl⟩ |
      ⟨-, rfl⟩
    · exact Flow.covered_binaryRule ht hunder hq hp
    · exact Flow.covered_unaryRule hunder hq hp
    · exact Flow.covered_lenRule hunder hq hp
    · exact Flow.covered_collectionRule ht hT hunder hq hp
    · exact Flow.covered_indexRule ht hT hunder hq hp
  cases ha with
  | nothing => exact empty_within b
  | types ha =>
    cases hb with
    | nothing hb =>
      obtain ⟨p, hp, -⟩ := hcovered ha hb _ (List.mem_singleton_self _)
      cases hp
    | types hb =>
      obtain ⟨p, hp, hweaker⟩ := hcovered ha hb _ (List.mem_singleton_self _)
      obtain rfl := List.mem_singleton.1 hp
      exact hweaker.2

end FlowRule

end TypeFlow
