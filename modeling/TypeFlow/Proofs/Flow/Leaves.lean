import TypeFlow.Flow.Accept
import TypeFlow.Flow.Seed
import TypeFlow.Proofs.Bounds.Update
import TypeFlow.Proofs.Local
/-!
# Leaves of what rules ask for

A family of leaves is closed if no rule leaves it at some sites of a graph: it holds the base types,
the classes that are mentioned there, the arguments of its members, and the leaves of annotations
(`LeafFamily`). On a table over a closed family every rule asks for sets over it at these sites
(`over_asks`), as long as collection literals, which alone build new leaves, do (`LiteralsOver`).
-/

namespace TypeFlow

open TypeSet

/-- A family of leaves that the types at some sites of a graph stay in. The sites are closed under
the steps that rules take from one node to another. -/
structure LeafFamily (g : Graph) (S : NodeId → Prop) (P : TypeSet → Prop) : Prop where
  base : ∀ b, P (.base b)
  arg : ∀ b x, P (.arged b x) → P x
  created : ∀ n c, S n → g.kind n = .expr .objectInit → g.child? n .ref = some c → P (.cls c)
  enclosing : ∀ n c, S n → Flow.enclosing? g n .classDecl = some c → P (.cls c)
  declared : ∀ n type a, S n → g.child? n .declaredType = some type →
    g.annotationSet type = .ok a → Over P a
  returned : ∀ n type a, S n → g.child? n .returnType = some type →
    g.annotationSet type = .ok a → Over P a
  called : ∀ n f, S n → g.kind n = .expr .call → g.child? n .ref = some f → S f
  parent : ∀ n m, S n → m ∈ g.parents n → S m
  member : ∀ c m, P (.cls c) → m ∈ g.items c → S m

/-- All requests of a list ask for sets over a family of leaves. -/
def RequestsOver (P : TypeSet → Prop) (requests : List Request) : Prop :=
  ∀ q ∈ requests, Over P q.types

section RequestsOver

variable {P : TypeSet → Prop} {n : NodeId} {a : TypeSet}

@[simp] theorem requestsOver_nil : RequestsOver P [] := nofun

theorem requestsOver_widen (h : Over P a) : RequestsOver P [.widen n a] := by
  simpa [RequestsOver, Request.types] using h

theorem requestsOver_narrow (h : Over P a) : RequestsOver P [.narrow n a] := by
  simpa [RequestsOver, Request.types] using h

theorem RequestsOver.append {qs rs : List Request} (h : RequestsOver P qs)
    (h' : RequestsOver P rs) : RequestsOver P (qs ++ rs) := fun q hq =>
  (List.mem_append.1 hq).elim (h q) (h' q)

theorem requestsOver_flatMap {α : Type} {xs : List α} {f : α → List Request}
    (h : ∀ x ∈ xs, RequestsOver P (f x)) : RequestsOver P (xs.flatMap f) := fun q hq => by
  obtain ⟨x, hx, hq⟩ := List.mem_flatMap.1 hq
  exact h x hx q hq

theorem requestsOver_yieldIfAny (h : Over P a) : RequestsOver P (Flow.yieldIfAny n a) := by
  unfold Flow.yieldIfAny
  split
  · exact requestsOver_nil
  · exact requestsOver_widen h

/-- Taking up requests over a family keeps a table over it. -/
theorem BoundsTable.Over.result {t : BoundsTable} {requests : List Request} (ht : t.Sound)
    (hover : t.Over P) (hr : RequestsOver P requests) :
    ((Update.ofRequests t requests).result t).Over P := by
  have hfits := Update.fits_ofRequests ht fun q hq => (hr q hq).1
  have hend : ((Update.ofRequests t requests).result t).size = t.size ∧
      ((Update.ofRequests t requests).result t).Over P := by
    refine Update.result_induction (I := fun t' => t'.size = t.size ∧ t'.Over P)
      (fun s types he t' ht' => ?_) (fun s types he t' ht' => ?_) ⟨rfl, hover⟩
    · obtain ⟨n, hq, -⟩ := Update.mem_widen_ofRequests.1 he
      exact ⟨by simpa using ht'.1, ht'.2.widenTo (ht'.1 ▸ (hfits.widen _ he).1) (hr _ hq)⟩
    · obtain ⟨n, hq, -⟩ := Update.mem_narrow_ofRequests.1 he
      exact ⟨by simpa using ht'.1, ht'.2.narrowTo (ht'.1 ▸ (hfits.narrow _ he).1) (hr _ hq)⟩
  exact hend.2

end RequestsOver

namespace Flow

/-! ## Unions of many sets -/

/-- Joining canonical sets does not fail. -/
theorem joinOnto_eq : ∀ {sets : List TypeSet} {sofar : TypeSet}, sofar.Canonical →
    (∀ a ∈ sets, a.Canonical) → joinOnto sofar sets = .ok (sets.foldl TypeSet.union sofar)
  | [], _, _, _ => rfl
  | x :: xs, sofar, hs, hxs => by
    have hx := hxs x List.mem_cons_self
    have hunion : sofar.union? x = .ok (sofar.union x) := by
      simp [TypeSet.union?, checked, hs.check, hx.check]
    rw [joinOnto]
    simp only [hunion]
    exact joinOnto_eq (canonical_union hs hx) fun a ha => hxs a (List.mem_cons_of_mem _ ha)

theorem over_foldl_union {P : TypeSet → Prop} : ∀ {sets : List TypeSet} {sofar : TypeSet},
    Over P sofar → (∀ a ∈ sets, Over P a) → Over P (sets.foldl TypeSet.union sofar)
  | [], _, hs, _ => hs
  | x :: xs, sofar, hs, hxs => by
    rw [List.foldl_cons]
    exact over_foldl_union (over_union hs (hxs x List.mem_cons_self))
      fun a ha => hxs a (List.mem_cons_of_mem _ ha)

theorem over_joinOnto {P : TypeSet → Prop} {sets : List TypeSet} {sofar a : TypeSet}
    (hs : Over P sofar) (hsets : ∀ a ∈ sets, Over P a) (h : joinOnto sofar sets = .ok a) :
    Over P a := by
  rw [joinOnto_eq hs.1 fun a ha => (hsets a ha).1] at h
  obtain rfl := Except.ok.inj h
  exact over_foldl_union hs hsets

theorem over_join? {P : TypeSet → Prop} {sets : List TypeSet} {a : TypeSet}
    (hsets : ∀ a ∈ sets, Over P a) (h : join? sets = .ok (some a)) : Over P a := by
  obtain ⟨joined, hjoined, h⟩ := Run.bind_eq_ok.1 h
  have hover := over_joinOnto over_empty hsets hjoined
  have h := Run.pure_eq_ok.1 h
  split at h
  · cases h
  · obtain rfl := Option.some.inj h
    exact hover

/-- Joining the elements of a literal waits for each of them, and then does not fail. -/
theorem joinElements_eq {t : BoundsTable} (ht : ∀ n, (t.shown n).Canonical) :
    ∀ {es : List NodeId} {sofar : TypeSet}, sofar.Canonical → joinElements t sofar es =
      .ok (if ∃ e ∈ es, t.shown e = .empty then none
        else some ((es.map t.shown).foldl TypeSet.union sofar))
  | [], _, _ => by simp [joinElements]
  | e :: es, sofar, hs => by
    have hunion : sofar.union? (t.shown e) = .ok (sofar.union (t.shown e)) := by
      simp [TypeSet.union?, checked, hs.check, (ht e).check]
    rw [joinElements]
    split
    · next he => simp [he]
    · next he =>
      simp only [hunion, joinElements_eq ht (canonical_union hs (ht e))]
      simp [he]

theorem over_joinElements {P : TypeSet → Prop} {t : BoundsTable} (ht : t.Over P)
    {es : List NodeId} {sofar joined : TypeSet} (hs : Over P sofar)
    (h : joinElements t sofar es = .ok (some joined)) : Over P joined := by
  rw [joinElements_eq (fun n => (ht.shown n).1) hs.1] at h
  have h := Except.ok.inj h
  split at h
  · cases h
  · obtain rfl := Option.some.inj h
    refine over_foldl_union hs fun a ha => ?_
    obtain ⟨e, -, rfl⟩ := List.mem_map.1 ha
    exact ht.shown e

/-! ## Rule by rule -/

section Rules

variable {g : Graph} {S : NodeId → Prop} {P : TypeSet → Prop} {t : BoundsTable} {n : NodeId}
  {requests : List Request}

/-- The containers that the collection literals of a graph make lie over a family. -/
def LiteralsOver (g : Graph) (P : TypeSet → Prop) (t : BoundsTable) : Prop :=
  ∀ n b joined, literalContainer? (g.kind n) = some b →
    joinElements t .empty (elements g n) = .ok (some joined) → Over P (containerOf b joined)

theorem over_base (hP : LeafFamily g S P) (b : BaseType) : Over P (.base b) :=
  Proper.over trivial (hP.base b)

theorem over_calleeResult (hP : LeafFamily g S P) (ht : t.Over P) {func : NodeId} {a : TypeSet}
    (hfunc : S func) (h : calleeResult g t func = .ok a) : Over P a := by
  unfold calleeResult at h
  split at h
  · next hr => exact hP.returned _ _ _ hfunc hr h
  · split at h
    · obtain rfl := Except.ok.inj h
      exact ht.shown _
    · obtain rfl := Except.ok.inj h
      exact over_empty

theorem classOf?_eq_some {x : TypeSet} {c : NodeId} : classOf? x = some c ↔ x = .cls c := by
  cases x <;> simp [classOf?]

/-- A list of leaves is one of classes exactly if it is made from their declarations. -/
theorem mapM_classOf? : ∀ {xs : List TypeSet} {decls : List NodeId},
    xs.mapM classOf? = some decls ↔ xs = decls.map .cls
  | [], decls => by
    rw [List.mapM_nil]
    cases decls <;> simp
  | x :: xs, decls => by
    rw [List.mapM_cons]
    constructor
    · intro h
      obtain ⟨c, hc, h⟩ := Option.bind_eq_some_iff.1 h
      obtain ⟨cs, hcs, h⟩ := Option.bind_eq_some_iff.1 h
      obtain rfl := Option.some.inj h
      rw [classOf?_eq_some.1 hc, mapM_classOf?.1 hcs, List.map_cons]
    · cases decls with
      | nil => exact nofun
      | cons c cs =>
        intro h
        obtain ⟨rfl, hxs⟩ := List.cons.inj h
        rw [mapM_classOf?.2 hxs]
        rfl

/-- The classes of a receiver are leaves that are shown. -/
theorem cls_mem_of_receiver {decls : List NodeId} (h : receiver t n = .classes decls) :
    t.shown n ≠ .univ ∧ ∀ c ∈ decls, .cls c ∈ (t.shown n).leaves := by
  simp only [receiver] at h
  split at h
  · cases h
  · split at h
    · next hdecls =>
      obtain rfl := Receiver.classes.inj h
      refine ⟨fun hu => ?_, fun c hc => ?_⟩
      · rw [hu] at hdecls
        cases hdecls
      · rw [mapM_classOf?.1 hdecls]
        exact List.mem_map_of_mem hc
    · cases h

theorem member?_mem_items {host m : NodeId} {kind : DeclKind} {name : String}
    (h : member? g host kind name = some m) : m ∈ g.items host :=
  (List.mem_filter.1 (List.mem_of_find?_eq_some h)).1

theorem over_methodResult (hP : LeafFamily g S P) (ht : t.Over P) {a : TypeSet}
    (h : methodResult g t n = .ok a) : Over P a := by
  obtain ⟨name, -, h⟩ := Run.bind_eq_ok.1 h
  obtain ⟨target, -, h⟩ := Run.bind_eq_ok.1 h
  split at h
  · obtain rfl := Run.pure_eq_ok.1 h
    exact over_empty
  · obtain rfl := Run.pure_eq_ok.1 h
    exact over_univ
  · next decls hdecls =>
    split at h
    · obtain rfl := Run.pure_eq_ok.1 h
      exact over_univ
    · obtain ⟨results, hresults, h⟩ := Run.bind_eq_ok.1 h
      refine over_joinOnto over_empty (fun b hb => ?_) h
      obtain ⟨m, hmem, hm⟩ := mem_of_mapM_eq_ok hresults b hb
      obtain ⟨c, hc, hcm⟩ := List.mem_filterMap.1 hmem
      obtain ⟨hu, hcls⟩ := cls_mem_of_receiver hdecls
      have hPc : P (.cls c) := (ht.shown target).2 hu _ (hcls c hc)
      exact over_calleeResult hP ht (hP.member c m hPc (member?_mem_items hcm)) hm

theorem over_callResult (hP : LeafFamily g S P) (ht : t.Over P) (hn : S n) {a : TypeSet}
    (h : callResult g t n = .ok a) : Over P a := by
  unfold callResult at h
  split at h
  · next hkind =>
    obtain ⟨f, hf, h⟩ := Run.bind_eq_ok.1 h
    exact over_calleeResult hP ht (hP.called n f hn hkind (Graph.requireChild_eq_ok.1 hf)) h
  · next hkind =>
    obtain ⟨c, hc, h⟩ := Run.bind_eq_ok.1 h
    obtain rfl := Run.pure_eq_ok.1 h
    exact Proper.over trivial (hP.created n c hn hkind (Graph.requireChild_eq_ok.1 hc))
  · exact over_methodResult hP ht h
  · obtain rfl := Except.ok.inj h
    exact over_univ

theorem requestsOver_bindArg (ht : t.Over P) (place arg : NodeId) :
    RequestsOver P (bindArg t place arg) :=
  (requestsOver_yieldIfAny (ht.shown arg)).append (requestsOver_narrow (ht.permitted place))

theorem requestsOver_pairArgs {step : NodeId → NodeId → List Request}
    (h : ∀ place arg, RequestsOver P (step place arg)) (places args : List NodeId) :
    RequestsOver P (pairArgs step places args) :=
  requestsOver_flatMap fun p _ => h p.1 p.2

theorem over_operatorDomain (hP : LeafFamily g S P) (op : BinaryOp) : Over P op.domain := by
  have hdomain : op.domain = .base .bool ∨ op.domain = .ofLeaves [.base .int, .base .float] ∨
      op.domain = .ofLeaves [.base .int, .base .float, .base .string] := by
    cases op <;> decide
  rcases hdomain with h | h | h
  · rw [h]
    exact over_base hP _
  · rw [h]
    exact over_ofLeaves (by simp [Proper, hP.base])
  · rw [h]
    exact over_ofLeaves (by simp [Proper, hP.base])

theorem over_unaryDomain (hP : LeafFamily g S P) (op : UnaryOp) : Over P op.domain := by
  cases op
  · exact over_base hP _
  · exact over_ofLeaves (by simp [Proper, hP.base])

theorem over_binaryResult (hP : LeafFamily g S P) (op : BinaryOp) (a b : TypeSet) :
    Over P (binaryResult op a b) := by
  unfold binaryResult
  split
  · exact over_operatorDomain hP op
  · refine over_ofLeaves fun x hx => ?_
    obtain ⟨c, -, hx⟩ := List.mem_flatMap.1 hx
    obtain ⟨d, -, hx⟩ := List.mem_filterMap.1 hx
    obtain ⟨e, -, rfl⟩ := Option.map_eq_some_iff.1 hx
    exact ⟨trivial, hP.base e⟩

theorem over_unaryResult (hP : LeafFamily g S P) (op : UnaryOp) (a : TypeSet) :
    Over P (unaryResult op a) := by
  unfold unaryResult
  split
  · exact over_unaryDomain hP op
  · refine over_ofLeaves fun x hx => ?_
    obtain ⟨b, -, rfl⟩ := List.mem_map.1 hx
    exact ⟨trivial, hP.base b⟩

theorem over_elementOf? (hP : LeafFamily g S P) {x a : TypeSet} (hx : Proper x) (hPx : P x)
    (h : elementOf? x = some a) : Over P a := by
  cases x with
  | arged b y =>
    obtain ⟨-, rfl⟩ : b.isContainer ∧ y = a := by simpa [elementOf?] using h
    exact Proper.over hx.2 (hP.arg b y hPx)
  | base b =>
    simp only [elementOf?] at h
    split at h
    · obtain rfl := Option.some.inj h
      exact over_univ
    · split at h
      · obtain rfl := Option.some.inj h
        exact over_base hP _
      · cases h
  | _ => cases h

theorem over_fieldResult (ht : t.Over P) {a : TypeSet}
    (h : fieldResult g t n = .ok (some a)) : Over P a := by
  obtain ⟨name, -, h⟩ := Run.bind_eq_ok.1 h
  obtain ⟨target, -, h⟩ := Run.bind_eq_ok.1 h
  split at h
  · cases Run.pure_eq_ok.1 h
  · obtain rfl := Option.some.inj (Run.pure_eq_ok.1 h)
    exact over_univ
  · split at h
    · obtain rfl := Option.some.inj (Run.pure_eq_ok.1 h)
      exact over_univ
    · refine over_join? (fun b hb => ?_) h
      obtain ⟨f, -, rfl⟩ := List.mem_map.1 hb
      exact ht.shown f

theorem over_operatorDomain? (hP : LeafFamily g S P) {k : NodeKind} {a : TypeSet}
    (h : operatorDomain? k = some a) : Over P a := by
  unfold operatorDomain? at h
  split at h
  · obtain rfl := Option.some.inj h
    exact over_operatorDomain hP _
  · obtain rfl := Option.some.inj h
    exact over_unaryDomain hP _
  · obtain rfl := Option.some.inj h
    exact over_base hP _
  · cases h

theorem over_literalRule (hP : LeafFamily g S P) (h : (literalRule g).asks t n = .ok requests) :
    RequestsOver P requests := by
  simp only [literalRule] at h
  split at h
  · obtain rfl := Except.ok.inj h
    exact requestsOver_widen (over_base hP _)
  · obtain rfl := Except.ok.inj h
    exact requestsOver_nil

theorem over_collectionRule (hP : LeafFamily g S P) (hlit : LiteralsOver g P t)
    (h : (collectionRule g).asks t n = .ok requests) : RequestsOver P requests := by
  simp only [collectionRule] at h
  split at h
  · obtain rfl := Except.ok.inj h
    exact requestsOver_nil
  · next b hb =>
    split at h
    · obtain rfl := Except.ok.inj h
      exact requestsOver_widen (over_base hP _)
    · obtain ⟨joined?, hjoined, h⟩ := Run.bind_eq_ok.1 h
      cases joined? with
      | none =>
        obtain rfl := Run.pure_eq_ok.1 h
        exact requestsOver_nil
      | some joined =>
        obtain rfl := Run.pure_eq_ok.1 h
        exact requestsOver_widen (hlit n b joined hb hjoined)

theorem over_selfRule (hP : LeafFamily g S P) (hn : S n)
    (h : (selfRule g).asks t n = .ok requests) : RequestsOver P requests := by
  simp only [selfRule] at h
  split at h
  · next c hc =>
    obtain rfl := Except.ok.inj h
    exact requestsOver_widen (Proper.over trivial (hP.enclosing n c hn hc))
  · obtain rfl := Except.ok.inj h
    exact requestsOver_nil

theorem over_callResultRule (hP : LeafFamily g S P) (ht : t.Over P) (hn : S n)
    (h : (callResultRule g).asks t n = .ok requests) : RequestsOver P requests := by
  obtain ⟨result, hresult, h⟩ := Run.bind_eq_ok.1 h
  obtain rfl := Run.pure_eq_ok.1 h
  exact requestsOver_yieldIfAny (over_callResult hP ht hn hresult)

theorem over_callArgsRule (ht : t.Over P) {methods : List NodeId}
    (h : (callArgsRule g methods).asks t n = .ok requests) : RequestsOver P requests := by
  obtain ⟨binding, -, h⟩ := Run.bind_eq_ok.1 h
  split at h
  · obtain rfl := Run.pure_eq_ok.1 h
    exact requestsOver_nil
  · obtain rfl := Run.pure_eq_ok.1 h
    exact requestsOver_flatMap fun m _ =>
      requestsOver_pairArgs (fun _ arg => requestsOver_yieldIfAny (ht.shown arg)) _ _
  · obtain rfl := Run.pure_eq_ok.1 h
    exact requestsOver_flatMap fun places _ =>
      requestsOver_pairArgs (requestsOver_bindArg ht) places _

theorem over_binaryRule (hP : LeafFamily g S P) (h : (binaryRule g).asks t n = .ok requests) :
    RequestsOver P requests := by
  simp only [binaryRule] at h
  split at h
  · obtain ⟨left, -, h⟩ := Run.bind_eq_ok.1 h
    obtain ⟨right, -, h⟩ := Run.bind_eq_ok.1 h
    split at h
    · obtain rfl := Run.pure_eq_ok.1 h
      exact requestsOver_nil
    · obtain rfl := Run.pure_eq_ok.1 h
      exact requestsOver_yieldIfAny (over_binaryResult hP _ _ _)
  · obtain rfl := Except.ok.inj h
    exact requestsOver_nil

theorem over_unaryRule (hP : LeafFamily g S P) (h : (unaryRule g).asks t n = .ok requests) :
    RequestsOver P requests := by
  simp only [unaryRule] at h
  split at h
  · obtain ⟨operand, -, h⟩ := Run.bind_eq_ok.1 h
    obtain rfl := Run.pure_eq_ok.1 h
    exact requestsOver_yieldIfAny (over_unaryResult hP _ _)
  · obtain rfl := Except.ok.inj h
    exact requestsOver_nil

theorem over_lenRule (hP : LeafFamily g S P) (h : (lenRule g).asks t n = .ok requests) :
    RequestsOver P requests := by
  obtain ⟨operand, -, h⟩ := Run.bind_eq_ok.1 h
  dsimp only at h
  split at h
  · obtain rfl := Run.pure_eq_ok.1 h
    exact requestsOver_widen (over_base hP _)
  · obtain rfl := Run.pure_eq_ok.1 h
    exact requestsOver_nil

theorem over_indexRule (hP : LeafFamily g S P) (ht : t.Over P)
    (h : (indexRule g).asks t n = .ok requests) : RequestsOver P requests := by
  obtain ⟨container, -, h⟩ := Run.bind_eq_ok.1 h
  dsimp only at h
  split at h
  · obtain rfl := Run.pure_eq_ok.1 h
    exact requestsOver_widen over_univ
  · next hne =>
    obtain ⟨types?, htypes, h⟩ := Run.bind_eq_ok.1 h
    cases types? with
    | none =>
      obtain rfl := Run.pure_eq_ok.1 h
      exact requestsOver_nil
    | some types =>
      obtain rfl := Run.pure_eq_ok.1 h
      refine requestsOver_widen (over_join? (fun a ha => ?_) htypes)
      obtain ⟨x, hx, hxa⟩ := List.mem_filterMap.1 ha
      have hshown := ht.shown container
      exact over_elementOf? hP (hshown.1.proper hne hx) (hshown.2 hne x hx) hxa

theorem over_fieldGetRule (ht : t.Over P) (h : (fieldGetRule g).asks t n = .ok requests) :
    RequestsOver P requests := by
  obtain ⟨types?, htypes, h⟩ := Run.bind_eq_ok.1 h
  cases types? with
  | none =>
    obtain rfl := Run.pure_eq_ok.1 h
    exact requestsOver_nil
  | some types =>
    obtain rfl := Run.pure_eq_ok.1 h
    exact requestsOver_widen (over_fieldResult ht htypes)

theorem over_assignRule (ht : t.Over P) (h : (assignRule g).asks t n = .ok requests) :
    RequestsOver P requests := by
  simp only [assignRule] at h
  split at h
  · obtain rfl := Except.ok.inj h
    exact requestsOver_nil
  · next target value _ =>
    split at h
    · obtain rfl := Except.ok.inj h
      exact requestsOver_nil
    · obtain ⟨fields, -, h⟩ := Run.bind_eq_ok.1 h
      obtain rfl := Run.pure_eq_ok.1 h
      intro q hq
      obtain ⟨place, -, rfl⟩ := List.mem_map.1 hq
      exact ht.shown value

theorem over_returnRule (ht : t.Over P) (h : (returnRule g).asks t n = .ok requests) :
    RequestsOver P requests := by
  simp only [returnRule] at h
  split at h
  · obtain rfl := Except.ok.inj h
    exact requestsOver_nil
  · obtain rfl := Except.ok.inj h
    exact requestsOver_yieldIfAny (ht.shown _)

theorem over_acceptRule (ht : t.Over P) (h : (acceptRule g).asks t n = .ok requests) :
    RequestsOver P requests := by
  simp only [acceptRule] at h
  split at h
  · obtain rfl := Except.ok.inj h
    exact requestsOver_nil
  · obtain rfl := Except.ok.inj h
    exact requestsOver_narrow (ht.permitted _)

theorem over_operatorRule (hP : LeafFamily g S P) (h : (operatorRule g).asks t n = .ok requests) :
    RequestsOver P requests := by
  simp only [operatorRule] at h
  split at h
  · next domain hdomain =>
    obtain rfl := Except.ok.inj h
    exact requestsOver_narrow (over_operatorDomain? hP hdomain)
  · obtain rfl := Except.ok.inj h
    exact requestsOver_nil

theorem over_conditionRule (hP : LeafFamily g S P) (h : (conditionRule g).asks t n = .ok requests) :
    RequestsOver P requests := by
  obtain ⟨cond, -, h⟩ := Run.bind_eq_ok.1 h
  obtain rfl := Run.pure_eq_ok.1 h
  exact requestsOver_narrow (over_base hP _)

/-- Every rule asks for sets over a closed family. -/
theorem over_asks (hP : LeafFamily g S P) (ht : t.Over P) (hlit : LiteralsOver g P t) (hn : S n)
    {methods : List NodeId} {r : FlowRule} (hr : r ∈ rules g methods)
    (h : r.asks t n = .ok requests) : RequestsOver P requests := by
  simp only [rules, List.mem_cons, List.not_mem_nil, or_false] at hr
  rcases hr with rfl | rfl | rfl | rfl | rfl | rfl | rfl | rfl | rfl | rfl | rfl | rfl | rfl | rfl |
    rfl
  · exact over_literalRule hP h
  · exact over_collectionRule hP hlit h
  · exact over_selfRule hP hn h
  · exact over_callResultRule hP ht hn h
  · exact over_callArgsRule ht h
  · exact over_binaryRule hP h
  · exact over_unaryRule hP h
  · exact over_lenRule hP h
  · exact over_indexRule hP ht h
  · exact over_fieldGetRule ht h
  · exact over_assignRule ht h
  · exact over_returnRule ht h
  · exact over_acceptRule ht h
  · exact over_operatorRule hP h
  · exact over_conditionRule hP h

end Rules

end Flow

end TypeFlow
