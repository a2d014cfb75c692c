import TypeFlow.Proofs.Flow.Monotone
/-!
# Rules ask for more of more

What a rule asks of a table is covered by what it asks of a table above (`covered_asks`). The
rules that read a receiver (`reads?`) do so as long as it is treated alike in both tables: only
an untyped receiver is widened to everything and fed to all methods of a name, and only a typed
one narrows arguments and is written to.
-/

namespace TypeFlow

open TypeSet

/-! ## Coverage -/

/-- A request that asks for no more than another one. -/
def Request.Weaker : Request → Request → Prop
  | .widen n a, .widen m b => n = m ∧ a.Within b
  | .narrow n a, .narrow m b => n = m ∧ b.Within a
  | _, _ => False

theorem Request.Weaker.refl : ∀ q : Request, q.Weaker q
  | .widen _ a => ⟨rfl, .refl a⟩
  | .narrow _ a => ⟨rfl, .refl a⟩

theorem Request.Weaker.met {t : BoundsTable} {q p : Request} (h : q.Weaker p) (hp : p.Met t) :
    q.Met t := by
  cases q <;> cases p <;> first | exact h.elim | skip
  · obtain ⟨rfl, h⟩ := h
    exact fun hn => h.trans (hp hn)
  · obtain ⟨rfl, h⟩ := h
    exact fun hn => (hp hn).trans h

/-- Every request of the first list is weaker than one of the second. -/
def Covered (qs ps : List Request) : Prop := ∀ q ∈ qs, ∃ p ∈ ps, q.Weaker p

section Covered

variable {qs qs' ps ps' : List Request} {n : NodeId} {a b : TypeSet}

theorem Covered.refl (qs : List Request) : Covered qs qs := fun q hq => ⟨q, hq, .refl q⟩

@[simp] theorem covered_nil : Covered [] ps := nofun

theorem Covered.met {t : BoundsTable} (h : Covered qs ps) (hp : ∀ p ∈ ps, p.Met t) :
    ∀ q ∈ qs, q.Met t := fun q hq => by
  obtain ⟨p, hmem, hqp⟩ := h q hq
  exact hqp.met (hp p hmem)

theorem Covered.append (h : Covered qs ps) (h' : Covered qs' ps') :
    Covered (qs ++ qs') (ps ++ ps') := fun q hq => by
  rcases List.mem_append.1 hq with hq | hq
  · obtain ⟨p, hp, hqp⟩ := h q hq
    exact ⟨p, List.mem_append_left _ hp, hqp⟩
  · obtain ⟨p, hp, hqp⟩ := h' q hq
    exact ⟨p, List.mem_append_right _ hp, hqp⟩

theorem covered_widen (h : a.Within b) : Covered [.widen n a] [.widen n b] := fun q hq => by
  obtain rfl := List.mem_singleton.1 hq
  exact ⟨_, List.mem_singleton_self _, rfl, h⟩

theorem covered_narrow (h : b.Within a) : Covered [.narrow n a] [.narrow n b] := fun q hq => by
  obtain rfl := List.mem_singleton.1 hq
  exact ⟨_, List.mem_singleton_self _, rfl, h⟩

/-- Each of a list of things asks for what one of another list covers. -/
theorem covered_flatMap {α : Type} {xs ys : List α} {f f' : α → List Request}
    (h : ∀ x ∈ xs, ∃ y ∈ ys, Covered (f x) (f' y)) : Covered (xs.flatMap f) (ys.flatMap f') :=
  fun q hq => by
    obtain ⟨x, hx, hq⟩ := List.mem_flatMap.1 hq
    obtain ⟨y, hy, hcovered⟩ := h x hx
    obtain ⟨p, hp, hqp⟩ := hcovered q hq
    exact ⟨p, List.mem_flatMap.2 ⟨y, hy, hp⟩, hqp⟩

theorem covered_yieldIfAny (ha : a.Canonical) (h : a.Within b) :
    Covered (Flow.yieldIfAny n a) (Flow.yieldIfAny n b) := by
  unfold Flow.yieldIfAny
  split
  · exact covered_nil
  · next hne =>
    rw [if_neg]
    · exact covered_widen h
    · rintro rfl
      exact hne (within_empty ha h)

end Covered

namespace Flow

variable {g : Graph} {t T : BoundsTable} {n : NodeId} {qs ps : List Request}

/-! ## Rules -/

theorem covered_of_const {x : Except Fault (List Request)} (hq : x = .ok qs) (hp : x = .ok ps) :
    Covered qs ps := by
  obtain rfl := Except.ok.inj (hq.symm.trans hp)
  exact .refl qs

theorem covered_collectionRule (ht : t.Sound) (hT : T.Sound) (h : t.Under T)
    (hq : (collectionRule g).asks t n = .ok qs) (hp : (collectionRule g).asks T n = .ok ps) :
    Covered qs ps := by
  simp only [collectionRule] at hq hp
  split at hq
  · obtain rfl := Except.ok.inj hq
    exact covered_nil
  · next b hb =>
    simp only [hb] at hp
    split at hq
    · next hnil =>
      simp only [hnil] at hp
      exact covered_of_const hq hp
    · next hcons =>
      split at hp
      · next hnil => exact absurd hnil hcons
      · obtain ⟨joined?, hjoined, hq⟩ := Run.bind_eq_ok.1 hq
        cases joined? with
        | none =>
          obtain rfl := Run.pure_eq_ok.1 hq
          exact covered_nil
        | some joined =>
          obtain rfl := Run.pure_eq_ok.1 hq
          obtain ⟨hready, rfl⟩ := ready_of_joinElements ht hb hjoined
          rw [joinElements_of_ready hT (ready_mono ht h.shown hready)] at hp
          obtain rfl := Run.pure_eq_ok.1 hp
          exact covered_widen (within_of_refines
            (proper_containerOf (isContainer_of_literalContainer? hb) (canonical_elementUnion ht n))
            (refines_container ht hT hready (fun e _ => h.shown e) b))

theorem covered_callResultRule (ht : t.Sound) (hT : T.Sound) (h : t.Under T)
    (halike : Alike g t T n) (hq : (callResultRule g).asks t n = .ok qs)
    (hp : (callResultRule g).asks T n = .ok ps) : Covered qs ps := by
  obtain ⟨a, ha, hq⟩ := Run.bind_eq_ok.1 hq
  obtain ⟨b, hb, hp⟩ := Run.bind_eq_ok.1 hp
  obtain rfl := Run.pure_eq_ok.1 hq
  obtain rfl := Run.pure_eq_ok.1 hp
  exact covered_yieldIfAny (over_callResult (leafFamily_true g) ht.over trivial ha).1
    (callResult_mono ht hT h halike ha hb)

theorem covered_feed (ht : t.Sound) (h : t.Under T) (place arg : NodeId) :
    Covered (feed t place arg) (feed T place arg) :=
  covered_yieldIfAny (ht.canonical_shown arg) (h.shown arg)

theorem covered_bindArg (ht : t.Sound) (h : t.Under T) (place arg : NodeId) :
    Covered (bindArg t place arg) (bindArg T place arg) :=
  (covered_feed ht h place arg).append (covered_narrow (h.permitted place))

theorem covered_pairArgs {step step' : NodeId → NodeId → List Request}
    (h : ∀ place arg, Covered (step place arg) (step' place arg)) (places args : List NodeId) :
    Covered (pairArgs step places args) (pairArgs step' places args) :=
  covered_flatMap fun p hp => ⟨p, hp, h p.1 p.2⟩

/-- A call of a known function or class binds its arguments to the same places in all tables. -/
theorem callBinding_const (hkind : g.kind n = .expr .call ∨ g.kind n = .expr .objectInit) :
    (∃ places, ∀ t, callBinding g t n = .ok (.places [places])) ∨
      ∃ fault, ∀ t, callBinding g t n = .error fault := by
  cases href : g.requireChild n .ref with
  | ok d =>
    refine Or.inl ?_
    rcases hkind with hk | hk
    · exact ⟨_, fun t => by simp only [callBinding, hk, href]; rfl⟩
    · exact ⟨_, fun t => by simp only [callBinding, hk, href]; rfl⟩
  | error fault =>
    refine Or.inr ⟨fault, fun t => ?_⟩
    rcases hkind with hk | hk
    · simp only [callBinding, hk, href]
      rfl
    · simp only [callBinding, hk, href]
      rfl

/-- The first binding reaches no places that the second one does not. -/
inductive Binding.Within : Binding → Binding → Prop
  | pending (b : Binding) : Within .pending b
  | nowhere (b : Binding) : Within (.places []) b
  | anyMethod (name : String) : Within (.anyMethod name) (.anyMethod name)
  | places {lists lists' : List (List NodeId)} (h : lists ⊆ lists') :
      Within (.places lists) (.places lists')

/-- A call reaches more places in a table further up, as its receiver has more classes there. -/
theorem callBinding_within (ht : t.Sound) (h : t.Under T) (halike : Alike g t T n)
    (hbinds : bindsArgs g n) {b b' : Binding} (hb : callBinding g t n = .ok b)
    (hb' : callBinding g T n = .ok b') : b.Within b' := by
  by_cases hkind : g.kind n = .expr .call ∨ g.kind n = .expr .objectInit
  · rcases callBinding_const hkind with ⟨places, hconst⟩ | ⟨fault, hconst⟩
    · rw [hconst] at hb hb'
      obtain rfl := Except.ok.inj hb
      obtain rfl := Except.ok.inj hb'
      exact .places (List.Subset.refl _)
    · rw [hconst] at hb
      cases hb
  have hmethod : g.kind n = .expr .methodCall := by
    unfold bindsArgs at hbinds
    split at hbinds
    · next hcall => exact absurd (Or.inl hcall) hkind
    · next hinit => exact absurd (Or.inr hinit) hkind
    · assumption
    · cases hbinds
  simp only [callBinding, hmethod] at hb hb'
  obtain ⟨name, hname, hb⟩ := Run.bind_eq_ok.1 hb
  obtain ⟨target, htarget, hb⟩ := Run.bind_eq_ok.1 hb
  simp only [hname, htarget, Run.ok_bind] at hb'
  have haccess := access?_of_methodCall hmethod hname htarget
  rcases receiver_mono ht (h.shown target) with hr | hr | ⟨decls, decls', hr, hr', hsub⟩
  · simp only [hr] at hb
    obtain rfl := Run.pure_eq_ok.1 hb
    exact .pending b'
  · simp only [hr] at hb'
    obtain rfl := Run.pure_eq_ok.1 hb'
    cases hr' : receiver t target with
    | pending =>
      simp only [hr'] at hb
      obtain rfl := Run.pure_eq_ok.1 hb
      exact .pending _
    | dynamic =>
      simp only [hr'] at hb
      obtain rfl := Run.pure_eq_ok.1 hb
      exact .anyMethod name
    | classes decls =>
      -- the receiver is untyped further up, so none of its classes has the method
      have hnone : hasMember g decls .function name = false :=
        halike _ _ (by simp [treatment?, haccess, hr']) (by simp [treatment?, haccess, hr])
      simp only [hr', hasMember_eq_false.1 hnone] at hb
      obtain rfl := Run.pure_eq_ok.1 hb
      exact .nowhere _
  · simp only [hr] at hb
    simp only [hr'] at hb'
    obtain rfl := Run.pure_eq_ok.1 hb
    obtain rfl := Run.pure_eq_ok.1 hb'
    refine .places fun places hmem => ?_
    obtain ⟨m, hm, rfl⟩ := List.mem_map.1 hmem
    obtain ⟨c, hc, hcm⟩ := List.mem_filterMap.1 hm
    exact List.mem_map_of_mem (List.mem_filterMap.2 ⟨c, hsub c hc, hcm⟩)

theorem covered_callArgsRule (ht : t.Sound) (h : t.Under T) (halike : Alike g t T n)
    {methods : List NodeId} (happlies : (callArgsRule g methods).applies n)
    (hq : (callArgsRule g methods).asks t n = .ok qs)
    (hp : (callArgsRule g methods).asks T n = .ok ps) : Covered qs ps := by
  obtain ⟨binding, hbinding, hq⟩ := Run.bind_eq_ok.1 hq
  obtain ⟨binding', hbinding', hp⟩ := Run.bind_eq_ok.1 hp
  cases callBinding_within ht h halike happlies hbinding hbinding' with
  | pending | nowhere =>
    obtain rfl := Run.pure_eq_ok.1 hq
    exact covered_nil
  | anyMethod name =>
    obtain rfl := Run.pure_eq_ok.1 hq
    obtain rfl := Run.pure_eq_ok.1 hp
    exact covered_flatMap fun m hm => ⟨m, hm, covered_pairArgs (covered_feed ht h) _ _⟩
  | places hsub =>
    obtain rfl := Run.pure_eq_ok.1 hq
    obtain rfl := Run.pure_eq_ok.1 hp
    exact covered_flatMap fun places hmem =>
      ⟨places, hsub hmem, covered_pairArgs (covered_bindArg ht h) _ _⟩

theorem covered_binaryRule (ht : t.Sound) (h : t.Under T)
    (hq : (binaryRule g).asks t n = .ok qs) (hp : (binaryRule g).asks T n = .ok ps) :
    Covered qs ps := by
  simp only [binaryRule] at hq hp
  split at hq
  · next op hkind =>
    simp only [hkind] at hp
    obtain ⟨left, hleft, hq⟩ := Run.bind_eq_ok.1 hq
    obtain ⟨right, hright, hq⟩ := Run.bind_eq_ok.1 hq
    simp only [hleft, hright, Run.ok_bind] at hp
    split at hq
    · obtain rfl := Run.pure_eq_ok.1 hq
      exact covered_nil
    · next hne =>
      have hne' : ¬(T.shown left = .empty ∨ T.shown right = .empty) := by
        rintro (he | he)
        · exact hne (Or.inl (within_empty (ht.canonical_shown left) (he ▸ h.shown left)))
        · exact hne (Or.inr (within_empty (ht.canonical_shown right) (he ▸ h.shown right)))
      rw [if_neg hne'] at hp
      obtain rfl := Run.pure_eq_ok.1 hq
      obtain rfl := Run.pure_eq_ok.1 hp
      exact covered_yieldIfAny (over_binaryResult (leafFamily_true g) op _ _).1
        (binaryResult_mono (h.shown left) (h.shown right))
  · obtain rfl := Except.ok.inj hq
    exact covered_nil

theorem covered_unaryRule (h : t.Under T) (hq : (unaryRule g).asks t n = .ok qs)
    (hp : (unaryRule g).asks T n = .ok ps) : Covered qs ps := by
  simp only [unaryRule] at hq hp
  split at hq
  · next op hkind =>
    simp only [hkind] at hp
    obtain ⟨operand, hoperand, hq⟩ := Run.bind_eq_ok.1 hq
    simp only [hoperand, Run.ok_bind] at hp
    obtain rfl := Run.pure_eq_ok.1 hq
    obtain rfl := Run.pure_eq_ok.1 hp
    exact covered_yieldIfAny (over_unaryResult (leafFamily_true g) op _).1
      (unaryResult_mono (h.shown operand))
  · obtain rfl := Except.ok.inj hq
    exact covered_nil

theorem covered_lenRule (h : t.Under T) (hq : (lenRule g).asks t n = .ok qs)
    (hp : (lenRule g).asks T n = .ok ps) : Covered qs ps := by
  obtain ⟨operand, hoperand, hq⟩ := Run.bind_eq_ok.1 hq
  simp only [lenRule, hoperand, Run.ok_bind] at hp
  dsimp only at hq
  split at hq
  · next hlen =>
    rw [if_pos (isMeasurable_mono (h.shown operand) hlen)] at hp
    exact covered_of_const hq hp
  · obtain rfl := Run.pure_eq_ok.1 hq
    exact covered_nil

theorem covered_indexRule (ht : t.Sound) (hT : T.Sound) (h : t.Under T)
    (hq : (indexRule g).asks t n = .ok qs) (hp : (indexRule g).asks T n = .ok ps) :
    Covered qs ps := by
  obtain ⟨container, hcontainer, hq⟩ := Run.bind_eq_ok.1 hq
  simp only [indexRule, hcontainer, Run.ok_bind] at hp
  dsimp only at hq
  by_cases hu' : T.shown container = .univ
  · rw [if_pos hu'] at hp
    obtain rfl := Run.pure_eq_ok.1 hp
    split at hq
    · obtain rfl := Run.pure_eq_ok.1 hq
      exact .refl _
    · obtain ⟨joined?, -, hq⟩ := Run.bind_eq_ok.1 hq
      cases joined? with
      | some joined =>
        obtain rfl := Run.pure_eq_ok.1 hq
        exact covered_widen (within_univ _)
      | none =>
        obtain rfl := Run.pure_eq_ok.1 hq
        exact covered_nil
  have hwithin := (h.shown container).resolve_left hu'
  rw [if_neg hu'] at hp
  rw [if_neg hwithin.1] at hq
  obtain ⟨joined?, hjoined, hq⟩ := Run.bind_eq_ok.1 hq
  obtain ⟨joined'?, hjoined', hp⟩ := Run.bind_eq_ok.1 hp
  cases joined? with
  | none =>
    obtain rfl := Run.pure_eq_ok.1 hq
    exact covered_nil
  | some joined =>
    have hproper : ∀ {t : BoundsTable}, t.Sound → t.shown container ≠ .univ →
        ∀ x ∈ (t.shown container).leaves, Proper x := fun ht hu x hx =>
      (ht.canonical_shown container).proper hu hx
    have hcanonical : ∀ {t : BoundsTable}, t.Sound → t.shown container ≠ .univ →
        ∀ a ∈ (t.shown container).leaves.filterMap elementOf?, a.Canonical := by
      intro t ht hu a ha
      obtain ⟨x, hx, hxa⟩ := List.mem_filterMap.1 ha
      exact canonical_elementOf? (hproper ht hu x hx) hxa
    obtain ⟨joined', rfl, hjoins⟩ := join?_mono (hcanonical ht hwithin.1) (hcanonical hT hu')
      (fun a ha => by
        obtain ⟨x, hx, hxa⟩ := List.mem_filterMap.1 ha
        obtain ⟨y, hy, hxy⟩ := (hwithin.2 x hx).resolve_left hu'
        obtain ⟨b, hyb, hab⟩ := elementOf?_mono (hproper ht hwithin.1 x hx) hxy hxa
        exact ⟨b, List.mem_filterMap.2 ⟨y, hy, hyb⟩, hab⟩) hjoined hjoined'
    obtain rfl := Run.pure_eq_ok.1 hq
    obtain rfl := Run.pure_eq_ok.1 hp
    exact covered_widen hjoins

theorem covered_fieldGetRule (ht : t.Sound) (hT : T.Sound) (h : t.Under T)
    (halike : Alike g t T n) (happlies : (fieldGetRule g).applies n)
    (hq : (fieldGetRule g).asks t n = .ok qs) (hp : (fieldGetRule g).asks T n = .ok ps) :
    Covered qs ps := by
  obtain ⟨hkind, href⟩ : g.kind n = .expr .fieldGet ∧ g.hasChild n .ref = false := by
    simpa [fieldGetRule] using happlies
  obtain ⟨a?, ha, hq⟩ := Run.bind_eq_ok.1 hq
  obtain ⟨b?, hb, hp⟩ := Run.bind_eq_ok.1 hp
  cases a? with
  | none =>
    obtain rfl := Run.pure_eq_ok.1 hq
    exact covered_nil
  | some a =>
    obtain ⟨b, rfl, hab⟩ := fieldResult_mono ht hT h hkind href halike ha hb
    obtain rfl := Run.pure_eq_ok.1 hq
    obtain rfl := Run.pure_eq_ok.1 hp
    exact covered_widen hab

theorem covered_assignRule (ht : t.Sound) (h : t.Under T)
    (halike : ∀ place value, assignment? g n = some (place, value) → Alike g t T place)
    (hq : (assignRule g).asks t n = .ok qs) (hp : (assignRule g).asks T n = .ok ps) :
    Covered qs ps := by
  simp only [assignRule] at hq hp
  split at hq
  · obtain rfl := Except.ok.inj hq
    exact covered_nil
  · next place value hassign =>
    simp only [hassign] at hp
    split at hq
    · obtain rfl := Except.ok.inj hq
      exact covered_nil
    · next hne =>
      have hne' : T.shown value ≠ .empty := fun he =>
        hne (within_empty (ht.canonical_shown value) (he ▸ h.shown value))
      rw [if_neg hne'] at hp
      obtain ⟨fs, hfs, hq⟩ := Run.bind_eq_ok.1 hq
      obtain ⟨fs', hfs', hp⟩ := Run.bind_eq_ok.1 hp
      obtain rfl := Run.pure_eq_ok.1 hq
      obtain rfl := Run.pure_eq_ok.1 hp
      have hsub := writtenFields_mono ht h (halike place value hassign) hfs hfs'
      intro q hq
      obtain ⟨d, hd, rfl⟩ := List.mem_map.1 hq
      refine ⟨.widen d (T.shown value), List.mem_map_of_mem ?_, rfl, h.shown value⟩
      rcases List.mem_cons.1 hd with rfl | hd
      · exact List.mem_cons_self
      · exact List.mem_cons_of_mem _ (hsub d hd)

theorem covered_returnRule (ht : t.Sound) (h : t.Under T)
    (hq : (returnRule g).asks t n = .ok qs) (hp : (returnRule g).asks T n = .ok ps) :
    Covered qs ps := by
  simp only [returnRule] at hq hp
  split at hq
  · obtain rfl := Except.ok.inj hq
    exact covered_nil
  · next slot value hreturned =>
    simp only [hreturned] at hp
    obtain rfl := Except.ok.inj hq
    obtain rfl := Except.ok.inj hp
    exact covered_yieldIfAny (ht.canonical_shown value) (h.shown value)

theorem covered_acceptRule (h : t.Under T) (hq : (acceptRule g).asks t n = .ok qs)
    (hp : (acceptRule g).asks T n = .ok ps) : Covered qs ps := by
  simp only [acceptRule] at hq hp
  split at hq
  · obtain rfl := Except.ok.inj hq
    exact covered_nil
  · next place value hbound =>
    simp only [hbound] at hp
    obtain rfl := Except.ok.inj hq
    obtain rfl := Except.ok.inj hp
    exact covered_narrow (h.permitted place)

/-! ## All rules -/

/-- The access whose receiver a rule reads at a node. -/
def reads? (g : Graph) (rule : String) (n : NodeId) : Option NodeId :=
  if rule = "call-result" ∨ rule = "call-args" ∨ rule = "field-get" then some n
  else if rule = "assign-pos" then (assignment? g n).map (·.1)
  else none

/-- What a rule asks of a table is covered by what it asks of a table above, if the receiver that
it reads is treated alike in both. -/
theorem covered_asks (ht : t.Sound) (hT : T.Sound) (h : t.Under T) {methods : List NodeId}
    {r : FlowRule} (hr : r ∈ rules g methods) (happlies : r.applies n)
    (halike : ∀ m, reads? g r.name n = some m → Alike g t T m) (hq : r.asks t n = .ok qs)
    (hp : r.asks T n = .ok ps) : Covered qs ps := by
  simp only [rules, List.mem_cons, List.not_mem_nil, or_false] at hr
  rcases hr with rfl | rfl | rfl | rfl | rfl | rfl | rfl | rfl | rfl | rfl | rfl | rfl | rfl |
    rfl | rfl
  · exact covered_of_const hq hp
  · exact covered_collectionRule ht hT h hq hp
  · exact covered_of_const hq hp
  · exact covered_callResultRule ht hT h (halike n rfl) hq hp
  · exact covered_callArgsRule ht h (halike n rfl) happlies hq hp
  · exact covered_binaryRule ht h hq hp
  · exact covered_unaryRule h hq hp
  · exact covered_lenRule h hq hp
  · exact covered_indexRule ht hT h hq hp
  · exact covered_fieldGetRule ht hT h (halike n rfl) happlies hq hp
  · refine covered_assignRule ht h (fun place value hassign => halike place ?_) hq hp
    simp [reads?, assignRule, hassign]
  · exact covered_returnRule ht h hq hp
  · exact covered_acceptRule h hq hp
  · exact covered_of_const hq hp
  · exact covered_of_const hq hp

end Flow

end TypeFlow
