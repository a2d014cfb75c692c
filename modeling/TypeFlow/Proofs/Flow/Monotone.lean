import TypeFlow.Proofs.Flow.Depth
import TypeFlow.Proofs.Flow.Receivers
/-!
# More yields more

Calls, fields, operators and containers yield more where their parts do. For a method call or a
field that is true as long as its receiver is treated alike (`methodResult_mono`,
`fieldResult_mono`): what untyped members yield is everything, which a receiver that turns out to
have the member would take back.
-/

namespace TypeFlow

open TypeSet

namespace Flow

variable {g : Graph} {t T : BoundsTable} {n : NodeId}

/-! ## Results -/

/-- More and larger sets have a larger union. -/
theorem foldl_union_mono {as bs : List TypeSet} (has : ∀ a ∈ as, a.Canonical)
    (hbs : ∀ b ∈ bs, b.Canonical) (h : ∀ a ∈ as, ∃ b ∈ bs, a.Within b) :
    (as.foldl TypeSet.union .empty).Within (bs.foldl TypeSet.union .empty) := by
  refine foldl_union_within canonical_empty has (empty_within _) fun a ha => ?_
  obtain ⟨b, hb, hab⟩ := h a ha
  exact hab.trans (sub_foldl_union canonical_empty hbs _ (Or.inr hb)).within

theorem join?_eq {sets : List TypeSet} (h : ∀ a ∈ sets, a.Canonical) : join? sets =
    .ok (if sets.foldl TypeSet.union .empty = .empty then none
      else some (sets.foldl TypeSet.union .empty)) := by
  rw [join?, joinOnto_eq canonical_empty h]
  rfl

/-- Larger sets join to a larger one. -/
theorem join?_mono {as bs : List TypeSet} (has : ∀ a ∈ as, a.Canonical)
    (hbs : ∀ b ∈ bs, b.Canonical) (h : ∀ a ∈ as, ∃ b ∈ bs, a.Within b) {a : TypeSet}
    {b? : Option TypeSet} (ha : join? as = .ok (some a)) (hb : join? bs = .ok b?) :
    ∃ b, b? = some b ∧ a.Within b := by
  have hwithin := foldl_union_mono has hbs h
  rw [join?_eq has] at ha
  rw [join?_eq hbs] at hb
  obtain rfl := Except.ok.inj hb
  split at ha
  · cases ha
  · next hne =>
    obtain rfl := Option.some.inj (Except.ok.inj ha)
    have hcanonical := canonical_foldl_union canonical_empty has
    have hne' : bs.foldl TypeSet.union .empty ≠ .empty := by
      intro he
      rw [he] at hwithin
      exact hne (within_empty hcanonical hwithin)
    rw [if_neg hne']
    exact ⟨_, rfl, hwithin⟩

theorem canonical_calleeResult (ht : t.Sound) {f : NodeId} {a : TypeSet}
    (h : calleeResult g t f = .ok a) : a.Canonical :=
  (over_calleeResult (leafFamily_true g) ht.over trivial h).1

/-- Functions return more. -/
theorem calleeResult_mono (h : t.Under T) {f : NodeId} {a b : TypeSet}
    (ha : calleeResult g t f = .ok a) (hb : calleeResult g T f = .ok b) : a.Within b := by
  unfold calleeResult at ha hb
  cases htype : g.child? f .returnType with
  | some type =>
    simp only [htype] at ha hb
    obtain rfl := Except.ok.inj (ha.symm.trans hb)
    exact .refl _
  | none =>
    simp only [htype] at ha hb
    cases hslot : g.child? f .returnSlot with
    | some slot =>
      simp only [hslot] at ha hb
      obtain rfl := Except.ok.inj ha
      obtain rfl := Except.ok.inj hb
      exact h.shown slot
    | none =>
      simp only [hslot] at ha hb
      obtain rfl := Except.ok.inj (ha.symm.trans hb)
      exact .refl _

/-- Method calls yield more. -/
theorem methodResult_mono (ht : t.Sound) (hT : T.Sound) (h : t.Under T)
    (hkind : g.kind n = .expr .methodCall) (halike : Alike g t T n) {a b : TypeSet}
    (ha : methodResult g t n = .ok a) (hb : methodResult g T n = .ok b) : a.Within b := by
  obtain ⟨name, hname, ha⟩ := Run.bind_eq_ok.1 ha
  obtain ⟨target, htarget, ha⟩ := Run.bind_eq_ok.1 ha
  simp only [methodResult, hname, htarget, Run.ok_bind] at hb
  have haccess := access?_of_methodCall hkind hname htarget
  rcases receiver_mono ht (h.shown target) with hr | hr | ⟨decls, decls', hr, hr', hsub⟩
  · simp only [hr] at ha
    obtain rfl := Run.pure_eq_ok.1 ha
    exact empty_within _
  · simp only [hr] at hb
    obtain rfl := Run.pure_eq_ok.1 hb
    exact within_univ _
  simp only [hr] at ha
  simp only [hr'] at hb
  rcases members_mono haccess hr hr' hsub halike with ⟨-, hnone⟩ | ⟨hsome, hmembers⟩
  · simp only [hnone] at hb
    obtain rfl := Run.pure_eq_ok.1 hb
    exact within_univ _
  obtain ⟨m, ms, hms⟩ := List.exists_cons_of_ne_nil hsome
  obtain ⟨m', ms', hms'⟩ := List.exists_cons_of_ne_nil
    (List.ne_nil_of_mem (hmembers m (by rw [hms]; exact List.mem_cons_self)))
  rw [hms, hms'] at hmembers
  simp only [hms] at ha
  simp only [hms'] at hb
  obtain ⟨as, has, ha⟩ := Run.bind_eq_ok.1 ha
  obtain ⟨bs, hbs, hb⟩ := Run.bind_eq_ok.1 hb
  have hcas : ∀ a ∈ as, a.Canonical := fun a hmem => by
    obtain ⟨f, -, hf⟩ := mem_of_mapM_eq_ok has a hmem
    exact canonical_calleeResult ht hf
  have hcbs : ∀ b ∈ bs, b.Canonical := fun b hmem => by
    obtain ⟨f, -, hf⟩ := mem_of_mapM_eq_ok hbs b hmem
    exact canonical_calleeResult hT hf
  rw [joinOnto_eq canonical_empty hcas] at ha
  rw [joinOnto_eq canonical_empty hcbs] at hb
  obtain rfl := Except.ok.inj ha
  obtain rfl := Except.ok.inj hb
  refine foldl_union_mono hcas hcbs fun a hmem => ?_
  obtain ⟨f, hf, hfa⟩ := mem_of_mapM_eq_ok has a hmem
  obtain ⟨b, hb, hfb⟩ := exists_of_mapM_eq_ok hbs f (hmembers f hf)
  exact ⟨b, hb, calleeResult_mono h hfa hfb⟩

/-- Calls yield more. -/
theorem callResult_mono (ht : t.Sound) (hT : T.Sound) (h : t.Under T) (halike : Alike g t T n)
    {a b : TypeSet} (ha : callResult g t n = .ok a) (hb : callResult g T n = .ok b) :
    a.Within b := by
  unfold callResult at ha hb
  split at ha
  · next hkind =>
    simp only [hkind] at hb
    obtain ⟨f, hf, ha⟩ := Run.bind_eq_ok.1 ha
    simp only [hf, Run.ok_bind] at hb
    exact calleeResult_mono h ha hb
  · next hkind =>
    simp only [hkind] at hb
    obtain rfl := Except.ok.inj (ha.symm.trans hb)
    exact .refl _
  · next hkind =>
    simp only [hkind] at hb
    exact methodResult_mono ht hT h hkind halike ha hb
  · next hcall hinit hmethod =>
    split at hb
    · next hkind => exact (hcall hkind).elim
    · next hkind => exact (hinit hkind).elim
    · next hkind => exact (hmethod hkind).elim
    · obtain rfl := Except.ok.inj hb
      exact within_univ _

/-- Fields yield more. -/
theorem fieldResult_mono (ht : t.Sound) (hT : T.Sound) (h : t.Under T)
    (hkind : g.kind n = .expr .fieldGet) (href : g.hasChild n .ref = false)
    (halike : Alike g t T n) {a : TypeSet} {b? : Option TypeSet}
    (ha : fieldResult g t n = .ok (some a)) (hb : fieldResult g T n = .ok b?) :
    ∃ b, b? = some b ∧ a.Within b := by
  obtain ⟨name, hname, ha⟩ := Run.bind_eq_ok.1 ha
  obtain ⟨target, htarget, ha⟩ := Run.bind_eq_ok.1 ha
  simp only [fieldResult, hname, htarget, Run.ok_bind] at hb
  have haccess := access?_of_fieldGet hkind href hname htarget
  rcases receiver_mono ht (h.shown target) with hr | hr | ⟨decls, decls', hr, hr', hsub⟩
  · simp only [hr] at ha
    cases Run.pure_eq_ok.1 ha
  · simp only [hr] at hb
    obtain rfl := Run.pure_eq_ok.1 hb
    exact ⟨_, rfl, within_univ _⟩
  simp only [hr] at ha
  simp only [hr'] at hb
  rcases members_mono haccess hr hr' hsub halike with ⟨-, hnone⟩ | ⟨hsome, hmembers⟩
  · simp only [hnone] at hb
    obtain rfl := Run.pure_eq_ok.1 hb
    exact ⟨_, rfl, within_univ _⟩
  obtain ⟨m, ms, hms⟩ := List.exists_cons_of_ne_nil hsome
  obtain ⟨m', ms', hms'⟩ := List.exists_cons_of_ne_nil
    (List.ne_nil_of_mem (hmembers m (by rw [hms]; exact List.mem_cons_self)))
  rw [hms, hms'] at hmembers
  simp only [hms] at ha
  simp only [hms'] at hb
  have hcanonical : ∀ {t : BoundsTable} {fields : List NodeId}, t.Sound →
      ∀ a ∈ fields.map t.shown, a.Canonical := by
    intro t fields ht a ha
    obtain ⟨f, -, rfl⟩ := List.mem_map.1 ha
    exact ht.canonical_shown f
  refine join?_mono (hcanonical ht) (hcanonical hT) (fun a hmem => ?_) ha hb
  obtain ⟨f, hf, rfl⟩ := List.mem_map.1 hmem
  exact ⟨T.shown f, List.mem_map_of_mem (hmembers f hf), h.shown f⟩

/-- A write through a receiver reaches more fields. -/
theorem writtenFields_mono (ht : t.Sound) (h : t.Under T) (halike : Alike g t T n)
    {fs fs' : List NodeId} (hfs : writtenFields g t n = .ok fs)
    (hfs' : writtenFields g T n = .ok fs') : ∀ f ∈ fs, f ∈ fs' := by
  unfold writtenFields at hfs hfs'
  split at hfs
  · next hget =>
    obtain ⟨name, hname, hfs⟩ := Run.bind_eq_ok.1 hfs
    obtain ⟨target, htarget, hfs⟩ := Run.bind_eq_ok.1 hfs
    simp only [if_pos hget, hname, htarget, Run.ok_bind] at hfs'
    have haccess := access?_of_fieldGet hget.1 (by simpa using hget.2) hname htarget
    rcases receiver_mono ht (h.shown target) with hr | hr | ⟨decls, decls', hr, hr', hsub⟩
    · simp only [hr] at hfs
      obtain rfl := Run.pure_eq_ok.1 hfs
      simp
    · -- the receiver is untyped further up, and so it is further down
      cases hr' : receiver t target with
      | classes decls =>
        have hnone : hasMember g decls .field name = false :=
          halike _ _ (by simp [treatment?, haccess, hr']) (by simp [treatment?, haccess, hr])
        simp only [hr'] at hfs
        obtain rfl := Run.pure_eq_ok.1 hfs
        rw [hasMember_eq_false.1 hnone]
        simp
      | _ =>
        simp only [hr'] at hfs
        obtain rfl := Run.pure_eq_ok.1 hfs
        simp
    · simp only [hr] at hfs
      simp only [hr'] at hfs'
      obtain rfl := Run.pure_eq_ok.1 hfs
      obtain rfl := Run.pure_eq_ok.1 hfs'
      intro f hf
      obtain ⟨c, hc, hf⟩ := List.mem_filterMap.1 hf
      exact List.mem_filterMap.2 ⟨c, hsub c hc, hf⟩
  · obtain rfl := Except.ok.inj hfs
    simp

/-! ## Operators and parts -/

theorem within_of_refines {x y : TypeSet} (hx : Proper x) (h : Refines x y) : x.Within y := by
  refine Or.inr ⟨hx.ne_univ, fun z hz => ?_⟩
  rw [hx.leaves, List.mem_singleton] at hz
  rw [hz]
  exact Or.inr ⟨y, by simp [(hx.of_refines h).leaves], h⟩

/-- Leaves above another have its head. -/
theorem head?_of_refines {x y : TypeSet} (h : Refines x y) : x.head? = y.head? := by
  cases h <;> rfl

theorem heads_mono {a b : TypeSet} (hb : b ≠ .univ) (h : a.Within b) :
    ∀ c ∈ heads a, c ∈ heads b := by
  intro c hc
  obtain ⟨x, hx, hc⟩ := List.mem_filterMap.1 hc
  obtain ⟨y, hy, hxy⟩ := ((h.resolve_left hb).2 x hx).resolve_left hb
  exact List.mem_filterMap.2 ⟨y, hy, (head?_of_refines hxy).symm.trans hc⟩

/-- Base types make a canonical set, which lies within one that has them all. -/
theorem ofLeaves_base_within {bs : List BaseType} {a : TypeSet}
    (h : ∀ b ∈ bs, .base b ∈ a.leaves) : (ofLeaves (bs.map .base)).Within a := by
  have hproper : ∀ x ∈ bs.map TypeSet.base, Proper x := fun x hx => by
    obtain ⟨b, -, rfl⟩ := List.mem_map.1 hx
    exact trivial
  refine Or.inr ⟨ofLeaves_ne_univ hproper, fun x hx => ?_⟩
  obtain ⟨b, hb, rfl⟩ := List.mem_map.1 ((mem_leaves_ofLeaves hproper).1 hx)
  exact admits_of_mem (h b hb)

theorem base_mem_ofLeaves {bs : List BaseType} {b : BaseType} (h : b ∈ bs) :
    .base b ∈ (ofLeaves (bs.map .base)).leaves := by
  refine (mem_leaves_ofLeaves fun x hx => ?_).2 (List.mem_map_of_mem h)
  obtain ⟨c, -, rfl⟩ := List.mem_map.1 hx
  exact trivial

/-- The results of a binary operator on operands of known heads. -/
def binaryResults (op : BinaryOp) (as bs : List BaseType) : List BaseType :=
  as.flatMap fun a => bs.filterMap (op.result? a)

theorem binaryResult_eq (op : BinaryOp) (a b : TypeSet) : binaryResult op a b =
    if a = .univ ∨ b = .univ then op.domain
    else ofLeaves ((binaryResults op (heads a) (heads b)).map .base) := by
  simp only [binaryResult, binaryResults, List.map_flatMap, List.map_filterMap]

theorem result?_mem_domain {op : BinaryOp} {a b c : BaseType} (h : op.result? a b = some c) :
    .base c ∈ op.domain.leaves := by
  have hrows : ∀ op : BinaryOp, ∀ r ∈ op.rows, TypeSet.base r.result ∈ op.domain.leaves := by
    intro op
    cases op <;> decide
  obtain ⟨r, hr, rfl⟩ := Option.map_eq_some_iff.1 h
  exact hrows op r (List.mem_of_find?_eq_some hr)

/-- Binary operators yield more. -/
theorem binaryResult_mono {op : BinaryOp} {a b a' b' : TypeSet} (ha : a.Within a')
    (hb : b.Within b') : (binaryResult op a b).Within (binaryResult op a' b') := by
  rw [binaryResult_eq, binaryResult_eq]
  by_cases hu' : a' = .univ ∨ b' = .univ
  · rw [if_pos hu']
    split
    · exact .refl _
    · refine ofLeaves_base_within fun c hc => ?_
      obtain ⟨x, -, hc⟩ := List.mem_flatMap.1 hc
      obtain ⟨y, -, hc⟩ := List.mem_filterMap.1 hc
      exact result?_mem_domain hc
  · obtain ⟨ha', hb'⟩ := not_or.1 hu'
    rw [if_neg hu', if_neg (not_or.2 ⟨(ha.resolve_left ha').1, (hb.resolve_left hb').1⟩)]
    refine ofLeaves_base_within fun c hc => base_mem_ofLeaves ?_
    obtain ⟨x, hx, hc⟩ := List.mem_flatMap.1 hc
    obtain ⟨y, hy, hc⟩ := List.mem_filterMap.1 hc
    exact List.mem_flatMap.2
      ⟨x, heads_mono ha' ha x hx, List.mem_filterMap.2 ⟨y, heads_mono hb' hb y hy, hc⟩⟩

theorem unaryResult?_mem_domain : ∀ {op : UnaryOp} {a b : BaseType}, op.result? a = some b →
    .base b ∈ op.domain.leaves := by
  intro op a b
  cases op <;> cases a <;> cases b <;> decide

/-- Unary operators yield more. -/
theorem unaryResult_mono {op : UnaryOp} {a a' : TypeSet} (ha : a.Within a') :
    (unaryResult op a).Within (unaryResult op a') := by
  unfold unaryResult
  by_cases hu' : a' = .univ
  · rw [if_pos hu']
    split
    · exact .refl _
    · refine ofLeaves_base_within fun b hb => ?_
      obtain ⟨x, -, hb⟩ := List.mem_filterMap.1 hb
      exact unaryResult?_mem_domain hb
  · rw [if_neg hu', if_neg (ha.resolve_left hu').1]
    refine ofLeaves_base_within fun b hb => base_mem_ofLeaves ?_
    obtain ⟨x, hx, hb⟩ := List.mem_filterMap.1 hb
    exact List.mem_filterMap.2 ⟨x, heads_mono hu' ha x hx, hb⟩

theorem isMeasurable_mono {a b : TypeSet} (h : a.Within b) (ha : isMeasurable a) :
    isMeasurable b := by
  by_cases hu : b = .univ
  · simp [isMeasurable, hu]
  · simp only [isMeasurable, (h.resolve_left hu).1, decide_false, Bool.false_or,
      List.any_eq_true] at ha
    obtain ⟨c, hc, hlen⟩ := ha
    simp only [isMeasurable, Bool.or_eq_true, List.any_eq_true]
    exact Or.inr ⟨c, heads_mono hu h c hc, hlen⟩

/-- Leaves above another hold more. -/
theorem elementOf?_mono {x y a : TypeSet} (hx : Proper x) (h : Refines x y)
    (ha : elementOf? x = some a) : ∃ b, elementOf? y = some b ∧ a.Within b := by
  cases h with
  | refl => exact ⟨a, ha, .refl a⟩
  | bare b x =>
    have hb : b.isContainer := hx.1
    exact ⟨.univ, by simp [elementOf?, hb], within_univ a⟩
  | @arg b x y h =>
    obtain ⟨hb, rfl⟩ : b.isContainer ∧ x = a := by simpa [elementOf?] using ha
    exact ⟨y, by simp [elementOf?, hb], within_of_refines hx.2 h⟩

theorem canonical_elementOf? {x a : TypeSet} (hx : Proper x) (h : elementOf? x = some a) :
    a.Canonical :=
  (over_elementOf? (leafFamily_true Graph.empty) hx trivial h).1

end Flow

end TypeFlow
