import TypeFlow.Proofs.Lowering.Planted
/-!
# Names that lowering makes

A lowered loop has two variables, named after the number of the loop: the names of different loops
differ (`iteratorName_inj`, `counterName_inj`), and all of them start with one of two prefixes
(`isReserved`). Where a program names its variables otherwise (`Unreserved`), it does so until its
loops are lowered: no other rule makes a node that names a variable (`keeps_clean`).
-/

namespace TypeFlow

namespace Lowering

open TypeFlow.Graph Program

variable {g g₀ : Graph} {root n m x : NodeId} {turned : List NodeId} {p : Patch} {r : GraphRule}
  {f : SurfaceKind}

/-! ## The names of lowered loops -/

/-- The names that start like those of a lowered loop. -/
def isReserved (name : String) : Bool := name.startsWith "__it" || name.startsWith "__ix"

theorem iteratorName_eq (n : NodeId) : iteratorName n = "__it" ++ n.index.repr := rfl

theorem counterName_eq (n : NodeId) : counterName n = "__ix" ++ n.index.repr := rfl

theorem isReserved_iteratorName (n : NodeId) : isReserved (iteratorName n) := by
  refine Bool.or_eq_true_iff.2 (Or.inl (String.startsWith_string_iff.2 ?_))
  rw [iteratorName_eq, String.toList_append]
  exact List.prefix_append _ _

theorem isReserved_counterName (n : NodeId) : isReserved (counterName n) := by
  refine Bool.or_eq_true_iff.2 (Or.inr (String.startsWith_string_iff.2 ?_))
  rw [counterName_eq, String.toList_append]
  exact List.prefix_append _ _

/-- Different numbers are written differently behind one text. -/
theorem append_repr_inj (stem : String) (h : stem ++ n.index.repr = stem ++ m.index.repr) :
    n = m := by
  have hlists := congrArg String.toList h
  rw [String.toList_append, String.toList_append, Nat.toList_repr, Nat.toList_repr] at hlists
  have hnumbers := congrArg (fun digits => Nat.ofDigitChars 10 digits 0)
    (List.append_cancel_left hlists)
  exact congrArg NodeId.mk (by simpa using hnumbers)

theorem iteratorName_inj (h : iteratorName n = iteratorName m) : n = m := append_repr_inj _ h

theorem counterName_inj (h : counterName n = counterName m) : n = m := append_repr_inj _ h

theorem iteratorName_ne_counterName (n m : NodeId) : iteratorName n ≠ counterName m := by
  intro h
  have hlists := congrArg (fun name => name.toList[3]?) h
  rw [iteratorName_eq, counterName_eq] at hlists
  simp at hlists

/-- A name of one of the two variables of a lowered loop. -/
def IsNameOf (n : NodeId) (name : String) : Prop := name = iteratorName n ∨ name = counterName n

theorem IsNameOf.isReserved {name : String} (h : IsNameOf n name) : isReserved name := by
  rcases h with rfl | rfl
  · exact isReserved_iteratorName n
  · exact isReserved_counterName n

/-- No name belongs to two loops. -/
theorem IsNameOf.unique {name : String} (h : IsNameOf n name) (h' : IsNameOf m name) : n = m := by
  rcases h with rfl | rfl <;> rcases h' with h' | h'
  · exact iteratorName_inj h'
  · exact absurd h' (iteratorName_ne_counterName n m)
  · exact absurd h'.symm (iteratorName_ne_counterName m n)
  · exact counterName_inj h'

/-! ## Nodes that name variables -/

/-- Kinds whose nodes name a variable. -/
def namesVariable : NodeKind → Bool
  | .expr .ident | .decl .param | .decl .field | .surface .forIn => true
  | _ => false

/-- No variable of a program has a name that starts like one of a lowered loop. -/
def Unreserved (g : Graph) (root : NodeId) : Prop :=
  ∀ x, g.Below root x → namesVariable (g.kind x) → ∀ name, g.name? x = some name →
    isReserved name = false

theorem unreserved_iff : Unreserved g root ↔ ∀ x ∈ g.reachable root fun _ => true,
    namesVariable (g.kind x) → ∀ name ∈ g.name? x, isReserved name = false := by
  simp only [mem_reachable, and_true]
  exact Iff.rfl

instance (g : Graph) (root : NodeId) : Decidable (Unreserved g root) :=
  decidable_of_iff _ unreserved_iff.symm

/-- All new nodes of a lowered loop that name variables are identifiers. -/
theorem ident_of_loopNodes {var iterator counter : String} {m : NodeKind × Payload}
    (hm : m ∈ loopNodes var iterator counter) (hk : namesVariable m.1) :
    ∃ name, (name = iterator ∨ name = counter ∨ name = var) ∧ m = (.expr .ident, .str name) := by
  revert m
  simp [loopNodes, namesVariable]

/-- A segment that is turned names no variable. -/
theorem Turns.namesVariable {k k' : NodeKind} (h : Turns k k') (hk : namesVariable k') :
    k' = k := by
  rcases h with rfl | ⟨e, he, rfl⟩
  · rfl
  · rcases kinds_of_afterDot? he with ⟨-, rfl⟩ | ⟨-, rfl⟩ <;> cases hk

/-- After a firing, a node that names a variable did so before, or is one of the new ones. -/
theorem Plan.namesVariable (hplan : Plan g root turned p) (hc : Composed g root)
    (hroot : g.has root) (hx : (carriedOut g p).Below root x)
    (hk : namesVariable ((carriedOut g p).kind x)) :
    (g.Below root x ∧ (carriedOut g p).kind x = g.kind x ∧
      (carriedOut g p).payload x = g.payload x) ∨
    ∃ i m, p.nodes[i]? = some m ∧ x = ⟨g.size + i⟩ ∧ (carriedOut g p).kind x = m.1 ∧
      (carriedOut g p).payload x = m.2 := by
  have hreach := hplan.reach_of_below hc hroot hx
  have hkind := hplan.kind_carriedOut hc hroot hreach
  rcases hreach.old_or_new with hold | ⟨i, hi, rfl⟩
  · have hhas := has_of_below hc hroot hold
    rw [hkind] at hk ⊢
    refine Or.inl ⟨hold, (turns_finalKind hhas).namesVariable hk, ?_⟩
    rw [hplan.payload_carriedOut, payload_addAll hhas]
  · refine Or.inr ⟨i, _, List.getElem?_eq_getElem hi, rfl, ?_, ?_⟩
    · rw [hkind, finalKind_new hi hplan.has_turned]
    · rw [hplan.payload_carriedOut, payload_addAll_new hi]

/-! ## Before loops are lowered -/

/-- What a program still is whose loops are not lowered yet, and what is kept of it. -/
structure Clean (g₀ : Graph) (root : NodeId) (g : Graph) : Prop where
  composed : Composed g root
  unreserved : Unreserved g root
  size : g₀.size ≤ g.size
  payload : ∀ x, g₀.has x → g.payload x = g₀.payload x

/-- A patch of a rule makes no node that names a variable. -/
def Silent (root : NodeId) (r : GraphRule) (f : SurfaceKind) : Prop :=
  ∀ {g : Graph} {n : NodeId} {p : Patch}, Parsed g root → g.Below root n → task? g n = some f →
    r.effect g n = .ok (some p) → ∀ m ∈ p.nodes, namesVariable m.1 = false

theorem silent_foldOperators : Silent root foldOperators .operatorSeq := by
  intro g n p hp hn hf hplanned m hm
  obtain ⟨-, first, rest, heffect, -⟩ :=
    effect_foldOperators hp hn ((task?_eq_some_form rfl).1 hf)
  rw [heffect, patch_retire (climb [] first rest) fun top => top] at hplanned
  obtain rfl := Option.some.inj (Except.ok.inj hplanned)
  have hfirst : IsOperand (first :: rest.map Prod.snd) .empty (.old first) := List.mem_cons_self
  have hwrites : (climb [] first rest).Writes .empty fun c p =>
      Folded (first :: rest.map Prod.snd) p ∧ IsOperand (first :: rest.map Prod.snd) p c :=
    writes_climb folded_empty hfirst nofun
      fun q hq => List.mem_cons_of_mem first (List.mem_map_of_mem hq)
  obtain ⟨op, hop⟩ := hwrites.1.nodes m hm
  rw [hop]
  rfl

theorem silent_lowerDotPipe : Silent root lowerDotPipe .dotPipe := by
  intro g n p hp hn hf hplanned m hm
  obtain ⟨-, head, calls, -, -, heffect⟩ :=
    effect_lowerDotPipe hp hn ((task?_eq_some_form rfl).1 hf)
  obtain ⟨last, -, hrun⟩ := run_handThrough (g := g) calls head .empty
  rw [heffect, patch_retire (handThrough g head calls) fun last => (last : Handle), hrun]
    at hplanned
  obtain rfl := Option.some.inj (Except.ok.inj hplanned)
  cases hm

theorem silent_lowerDotted : Silent root lowerDotted .dotted := by
  intro g n p hp hn hf hplanned m hm
  obtain ⟨-, base, segments, read, -, -, -, -, heffect⟩ :=
    effect_lowerDotted hp hn ((task?_eq_some_form rfl).1 hf)
  obtain ⟨last, -, hrun⟩ := run_receiveThrough read base .empty
  rw [heffect, patch_retire (receiveThrough base read) fun last => (last : Handle), hrun]
    at hplanned
  obtain rfl := Option.some.inj (Except.ok.inj hplanned)
  cases hm

theorem silent_collectKeywordArgs : Silent root collectKeywordArgs .kwArg := by
  intro g n p hp hn hf hplanned m hm
  obtain ⟨ks, -, -, heffect⟩ := effect_collectKeywordArgs hp hn
  rw [heffect, patch_collectKeywordArgs] at hplanned
  obtain rfl := Option.some.inj (Except.ok.inj hplanned)
  rcases kinds_of_mapNodes hm with h | h | h <;> rw [h] <;> rfl

/-- A rule whose patches make no node that names a variable keeps a program clean. -/
theorem keeps_clean (hr : Handles r f) (hd : Drafts root r f) (hs : Silent root r f) :
    Keeps root (fun g => g.size ≤ 2 ^ 32 → Clean g₀ root g) r f := by
  refine keeps_of_fired hr hd (fun h => h.composed) fun {g n turned p} hp hn hf hfired hg => ?_
  refine ⟨hfired.composed, fun x hx hk name hname => ?_,
    hg.size.trans (size_le_commit hfired.commits), fun x hx => ?_⟩
  · rcases hfired.plan.namesVariable hg.composed hp.has_root hx hk with
      ⟨hold, hkind, hpayload⟩ | ⟨i, m, hm, -, hkind, -⟩
    · rw [hkind] at hk
      rw [name?, hpayload] at hname
      exact hg.unreserved x hold hk name hname
    · rw [hkind, hs hp hn hf hfired.effect m (List.mem_of_getElem? hm)] at hk
      cases hk
  · rw [hfired.plan.payload_carriedOut, payload_addAll (has_mono hg.size hx), hg.payload x hx]

end Lowering

end TypeFlow
