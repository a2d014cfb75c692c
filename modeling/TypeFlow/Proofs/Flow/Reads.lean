import Mathlib.Data.List.Find
import TypeFlow.Flow.Seed
import TypeFlow.Proofs.Flow.Answers
/-!
# What rules read

The rules read a program by its names: children, names, the declarations around a node, and lists
that are not lists of statements. Where all of this is the same in another graph (`Flow.ReadsAs`),
the rules apply at the same nodes there and ask for the same (`agree_rules`).
-/

namespace TypeFlow

open TypeSet Program

/-- Two rules of one name that apply at the same nodes of a program, and ask for the same there of
tables over its classes. -/
structure FlowRule.Agree (g : Graph) (root : NodeId) (r r' : FlowRule) : Prop where
  name : r'.name = r.name
  applies : ∀ n, g.Below root n → r'.applies n = r.applies n
  asks : ∀ n, g.Below root n → r.applies n → ∀ t, t.Over (ClassLeaf g root) →
    r'.asks t n = r.asks t n

namespace Flow

variable {g h : Graph} {root n f : NodeId} {t : BoundsTable}

/-- The program of the first graph reads alike in the second: what its nodes are, which parts and
ties they have, the lists that are not lists of statements, the declarations around a node, the sets
that types denote, and the methods of classes. -/
structure ReadsAs (g h : Graph) (root : NodeId) : Prop where
  below : ∀ n, h.Below root n ↔ g.Below root n
  kind : ∀ n, g.Below root n → h.kind n = g.kind n
  name : ∀ n, g.Below root n → h.name? n = g.name? n
  child : ∀ n r, g.Below root n → r.isItem = false → r ≠ .colored → h.child? n r = g.child? n r
  items : ∀ n, g.Below root n → g.kind n ≠ .stmt .block → h.items n = g.items n
  parents : ∀ n, g.Below root n → (g.kind n).category ≠ .type → g.kind n ≠ .decl .classDecl →
    h.parents n = g.parents n
  annotation : ∀ n, g.Below root n → h.annotationSet n = g.annotationSet n
  enclosingClass : ∀ n, g.Below root n → g.kind n = .expr .selfRef →
    enclosing? h n .classDecl = enclosing? g n .classDecl
  enclosingFunction : ∀ n, g.Below root n → g.kind n = .stmt .ret →
    enclosing? h n .function = enclosing? g n .function
  methods : classMethods h root = classMethods g root

namespace ReadsAs

variable (hs : ReadsAs g h root)

include hs

/-! ## Parts -/

theorem hasChild (hn : g.Below root n) {r : Role} (hr : r.isItem = false) (hc : r ≠ .colored) :
    h.hasChild n r = g.hasChild n r := by
  rw [Graph.hasChild, Graph.hasChild, hs.child n r hn hr hc]

theorem requireName (hn : g.Below root n) : h.requireName n = g.requireName n := by
  rw [Graph.requireName, Graph.requireName, hs.name n hn]

theorem requireChild (hn : g.Below root n) {r : Role} (hr : r.isItem = false)
    (hc : r ≠ .colored) : h.requireChild n r = g.requireChild n r := by
  rw [Graph.requireChild, Graph.requireChild, hs.child n r hn hr hc]

theorem members (kind : DeclKind) (hn : g.Below root n) (hk : g.kind n ≠ .stmt .block) :
    Flow.members h n kind = Flow.members g n kind := by
  rw [Flow.members, Flow.members, hs.items n hn hk]
  exact List.filter_congr fun m hm => by rw [hs.kind m (hn.of_mem_items hm)]

theorem member? (kind : DeclKind) (name : String) (hn : g.Below root n)
    (hk : g.kind n ≠ .stmt .block) : Flow.member? h n kind name = Flow.member? g n kind name := by
  rw [Flow.member?, Flow.member?, hs.members kind hn hk]
  refine List.find?_congr fun m hm => ?_
  rw [hs.name m (hn.of_mem_items (List.mem_filter.1 hm).1)]

theorem elements (hn : g.Below root n) {b : BaseType}
    (hb : literalContainer? (g.kind n) = some b) : Flow.elements h n = Flow.elements g n := by
  have hk : g.kind n ≠ .stmt .block := by
    intro hblock
    simp [hblock, literalContainer?] at hb
  simp only [Flow.elements, hs.kind n hn, hs.items n hn hk]
  split
  · exact List.filterMap_congr fun e he =>
      hs.child e .value (hn.of_mem_items he) rfl (by decide)
  · rfl

theorem calleeResult (t : BoundsTable) (hf : g.Below root f) :
    Flow.calleeResult h t f = Flow.calleeResult g t f := by
  rw [Flow.calleeResult, Flow.calleeResult, hs.child f .returnType hf rfl (by decide),
    hs.child f .returnSlot hf rfl (by decide)]
  cases htype : g.child? f .returnType with
  | none => rfl
  | some type => exact hs.annotation type (hf.of_child? htype rfl)

theorem assignment? (hn : g.Below root n) : Flow.assignment? h n = Flow.assignment? g n := by
  simp only [Flow.assignment?, hs.kind n hn, hs.child n .target hn rfl (by decide),
    hs.child n .value hn rfl (by decide)]

theorem bindsArgs (hg : Resolved g root) (hn : g.Below root n) :
    Flow.bindsArgs h n = Flow.bindsArgs g n := by
  simp only [Flow.bindsArgs, hs.kind n hn, hs.child n .ref hn rfl (by decide)]
  cases hd : g.child? n .ref with
  | none => rfl
  | some d => simp only [Option.any_some, hs.kind d (hg.tied n hn d hd).1]

theorem returned? (hg : Resolved g root) (hn : g.Below root n) :
    Flow.returned? h n = Flow.returned? g n := by
  rw [Flow.returned?, Flow.returned?, hs.kind n hn]
  refine ite_congr rfl (fun hkind => ?_) fun _ => rfl
  rw [hs.child n .value hn rfl (by decide), hs.enclosingFunction n hn hkind]
  refine Option.bind_congr fun value _ => ?_
  refine Option.bind_congr fun func hfunc => ?_
  rw [hs.child func .returnSlot (hg.below_enclosing hn hfunc).1 rfl (by decide)]

theorem bound? (hg : Resolved g root) (hn : g.Below root n) :
    Flow.bound? h n = Flow.bound? g n := by
  rw [Flow.bound?, Flow.bound?, hs.assignment? hn, hs.returned? hg hn]

/-! ## Receivers and calls -/

variable (ht : t.Over (ClassLeaf g root))

include ht

/-- Receivers have the same members, since what they hold are no blocks. -/
theorem receiverMembers {target : NodeId} {decls : List NodeId}
    (hr : receiver t target = .classes decls) (kind : DeclKind) (name : String) :
    (decls.filterMap fun c => Flow.member? h c kind name) =
      decls.filterMap fun c => Flow.member? g c kind name := by
  obtain ⟨hu, hcls⟩ := cls_mem_of_receiver hr
  refine List.filterMap_congr fun c hc => ?_
  have hclass : IsClass g root c := (ht.shown target).2 hu _ (hcls c hc)
  exact hs.member? kind name hclass.1 (by simp [hclass.2])

omit hs in
/-- The members of what a receiver holds belong to the program, and are of their kind. -/
theorem below_of_receiverMembers {target m : NodeId} {decls : List NodeId} {kind : DeclKind}
    {name : String} (hr : receiver t target = .classes decls)
    (hm : m ∈ decls.filterMap fun c => Flow.member? g c kind name) :
    g.Below root m ∧ g.kind m = .decl kind := by
  obtain ⟨hu, hcls⟩ := cls_mem_of_receiver hr
  obtain ⟨c, hc, hcm⟩ := List.mem_filterMap.1 hm
  have hclass : IsClass g root c := (ht.shown target).2 hu _ (hcls c hc)
  obtain ⟨hitem, hkind⟩ := List.mem_filter.1 (List.mem_of_find?_eq_some hcm)
  exact ⟨hclass.1.of_mem_items hitem, of_decide_eq_true hkind⟩

theorem methodResult (hn : g.Below root n) :
    Flow.methodResult h t n = Flow.methodResult g t n := by
  simp only [Flow.methodResult, hs.requireName hn,
    hs.requireChild hn (r := .receiver) rfl (by decide)]
  refine bind_congr fun name => bind_congr fun target => ?_
  cases hr : receiver t target with
  | classes decls =>
    simp only [hs.receiverMembers ht hr]
    have hbelow : ∀ m ∈ decls.filterMap fun c => Flow.member? g c .function name,
        g.Below root m := fun m hm => (below_of_receiverMembers ht hr hm).1
    have hresults := Run.mapM_congr fun m hm => hs.calleeResult t (hbelow m hm)
    generalize (decls.filterMap fun c => Flow.member? g c .function name) = methods at hresults ⊢
    cases methods with
    | nil => rfl
    | cons m ms => exact congrArg (· >>= joinOnto .empty) hresults
  | _ => rfl

theorem callResult (hg : Resolved g root) (hn : g.Below root n) :
    Flow.callResult h t n = Flow.callResult g t n := by
  simp only [Flow.callResult, hs.kind n hn, hs.requireChild hn (r := .ref) rfl (by decide),
    hs.methodResult ht hn]
  split
  · cases hd : g.requireChild n .ref with
    | error fault => rfl
    | ok d =>
      exact hs.calleeResult t (hg.tied n hn d (Graph.requireChild_eq_ok.1 hd)).1
  all_goals rfl

theorem fieldResult (hn : g.Below root n) : Flow.fieldResult h t n = Flow.fieldResult g t n := by
  simp only [Flow.fieldResult, hs.requireName hn,
    hs.requireChild hn (r := .receiver) rfl (by decide)]
  refine bind_congr fun name => bind_congr fun target => ?_
  cases hr : receiver t target with
  | classes decls => simp only [hs.receiverMembers ht hr]
  | _ => rfl

theorem writtenFields (hn : g.Below root n) :
    Flow.writtenFields h t n = Flow.writtenFields g t n := by
  simp only [Flow.writtenFields, hs.kind n hn, hs.hasChild hn (r := .ref) rfl (by decide),
    hs.requireName hn, hs.requireChild hn (r := .receiver) rfl (by decide)]
  refine if_congr Iff.rfl (bind_congr fun name => bind_congr fun target => ?_) rfl
  cases hr : receiver t target with
  | classes decls => simp only [hs.receiverMembers ht hr]
  | _ => rfl

theorem callBinding (hg : Resolved g root) (hn : g.Below root n) :
    Flow.callBinding h t n = Flow.callBinding g t n := by
  have hmembers : ∀ {d : NodeId} (kind : DeclKind), g.kind n = .expr .call ∨
      g.kind n = .expr .objectInit → g.requireChild n .ref = .ok d →
        Flow.members h d kind = Flow.members g d kind := by
    intro d kind hkind hd
    obtain ⟨hbelow, hrefers⟩ := hg.tied n hn d (Graph.requireChild_eq_ok.1 hd)
    refine hs.members kind hbelow fun hblock => ?_
    rcases hkind with hk | hk <;> simp [hk, hblock, refersTo] at hrefers
  simp only [Flow.callBinding, hs.kind n hn, hs.requireName hn,
    hs.requireChild hn (r := .ref) rfl (by decide),
    hs.requireChild hn (r := .receiver) rfl (by decide)]
  split
  · next hkind =>
    cases hd : g.requireChild n .ref with
    | ok d => simp only [Run.ok_bind, hmembers .param (Or.inl hkind) hd]
    | error fault => rfl
  · next hkind =>
    cases hd : g.requireChild n .ref with
    | ok d => simp only [Run.ok_bind, hmembers .field (Or.inr hkind) hd]
    | error fault => rfl
  · refine bind_congr fun name => bind_congr fun target => ?_
    cases hr : receiver t target with
    | classes decls =>
      simp only [hs.receiverMembers ht hr]
      refine congrArg (fun lists => pure (Binding.places lists))
        (List.map_congr_left fun m hm => ?_)
      obtain ⟨hbelow, hkind⟩ := below_of_receiverMembers ht hr hm
      exact hs.members .param hbelow (by simp [hkind])
    | _ => rfl

end ReadsAs

/-! ## Rules -/

section Rules

open FlowRule

variable (hs : ReadsAs g h root) (hg : Resolved g root)

include hs

theorem agree_literalRule : Agree g root (literalRule g) (literalRule h) where
  name := rfl
  applies n hn := by simp only [literalRule, hs.kind n hn]
  asks n hn _ t _ := by simp only [literalRule, hs.kind n hn]

theorem agree_collectionRule : Agree g root (collectionRule g) (collectionRule h) where
  name := rfl
  applies n hn := by simp only [collectionRule, hs.kind n hn]
  asks n hn _ t _ := by
    simp only [collectionRule, hs.kind n hn]
    cases hb : literalContainer? (g.kind n) with
    | none => rfl
    | some b => simp only [hs.elements hn hb]

theorem agree_selfRule : Agree g root (selfRule g) (selfRule h) where
  name := rfl
  applies n hn := by simp only [selfRule, hs.kind n hn]
  asks n hn happlies t _ := by
    simp only [selfRule, hs.enclosingClass n hn (of_decide_eq_true happlies)]

theorem agree_binaryRule : Agree g root (binaryRule g) (binaryRule h) where
  name := rfl
  applies n hn := by simp only [binaryRule, hs.kind n hn]
  asks n hn _ t _ := by
    simp only [binaryRule, hs.kind n hn, hs.requireChild hn (r := .left) rfl (by decide),
      hs.requireChild hn (r := .right) rfl (by decide)]

theorem agree_unaryRule : Agree g root (unaryRule g) (unaryRule h) where
  name := rfl
  applies n hn := by simp only [unaryRule, hs.kind n hn]
  asks n hn _ t _ := by
    simp only [unaryRule, hs.kind n hn, hs.requireChild hn (r := .operand) rfl (by decide)]

theorem agree_lenRule : Agree g root (lenRule g) (lenRule h) where
  name := rfl
  applies n hn := by simp only [lenRule, hs.kind n hn]
  asks n hn _ t _ := by simp only [lenRule, hs.requireChild hn (r := .operand) rfl (by decide)]

theorem agree_indexRule : Agree g root (indexRule g) (indexRule h) where
  name := rfl
  applies n hn := by simp only [indexRule, hs.kind n hn]
  asks n hn _ t _ := by simp only [indexRule, hs.requireChild hn (r := .value) rfl (by decide)]

theorem agree_fieldGetRule : Agree g root (fieldGetRule g) (fieldGetRule h) where
  name := rfl
  applies n hn := by
    simp only [fieldGetRule, hs.kind n hn, hs.hasChild hn (r := .ref) rfl (by decide)]
  asks n hn _ t ht := by simp only [fieldGetRule, hs.fieldResult ht hn]

theorem agree_assignRule : Agree g root (assignRule g) (assignRule h) where
  name := rfl
  applies n hn := by simp only [assignRule, hs.assignment? hn]
  asks n hn _ t ht := by
    simp only [assignRule, hs.assignment? hn]
    cases hassigned : assignment? g n with
    | none => rfl
    | some p => simp only [hs.writtenFields ht (below_of_assignment? hn hassigned)]

theorem agree_operatorRule : Agree g root (operatorRule g) (operatorRule h) where
  name := rfl
  applies n hn := by simp only [operatorRule, hs.kind n hn]
  asks n hn _ t _ := by simp only [operatorRule, hs.kind n hn]

theorem agree_conditionRule : Agree g root (conditionRule g) (conditionRule h) where
  name := rfl
  applies n hn := by simp only [conditionRule, hs.kind n hn]
  asks n hn _ t _ := by simp only [conditionRule, hs.requireChild hn (r := .cond) rfl (by decide)]

include hg

theorem agree_callResultRule : Agree g root (callResultRule g) (callResultRule h) where
  name := rfl
  applies n hn := by simp only [callResultRule, hs.kind n hn]
  asks n hn _ t ht := by simp only [callResultRule, hs.callResult ht hg hn]

theorem agree_callArgsRule : Agree g root (callArgsRule g (classMethods g root))
    (callArgsRule h (classMethods h root)) where
  name := rfl
  applies n hn := hs.bindsArgs hg hn
  asks n hn happlies t ht := by
    have hitems : h.items n = g.items n := hs.items n hn fun hblock => by
      simp [callArgsRule, bindsArgs, hblock] at happlies
    have hmethod : ∀ m ∈ classMethods g root, g.Below root m ∧ g.kind m = .decl .function :=
      fun m hm => by
        obtain ⟨hbelow, hm⟩ := Graph.mem_reachable.1 hm
        exact ⟨hbelow, by simpa using (Bool.and_eq_true_iff.1 hm).1⟩
    have hnamed : ∀ name, methodsNamed h (classMethods g root) name =
        methodsNamed g (classMethods g root) name := fun name =>
      List.filter_congr fun m hm => by rw [hs.name m (hmethod m hm).1]
    simp only [callArgsRule, hs.callBinding ht hg hn, hitems, hs.methods, hnamed]
    refine bind_congr fun binding => ?_
    cases binding with
    | anyMethod name =>
      refine congrArg pure (List.flatMap_congr fun m hm => ?_)
      obtain ⟨hbelow, hkind⟩ := hmethod m (List.mem_filter.1 hm).1
      rw [hs.members .param hbelow (by simp [hkind])]
    | _ => rfl

theorem agree_returnRule : Agree g root (returnRule g) (returnRule h) where
  name := rfl
  applies n hn := by simp only [returnRule, hs.returned? hg hn]
  asks n hn _ t _ := by simp only [returnRule, hs.returned? hg hn]

theorem agree_acceptRule : Agree g root (acceptRule g) (acceptRule h) where
  name := rfl
  applies n hn := by simp only [acceptRule, hs.bound? hg hn]
  asks n hn _ t _ := by simp only [acceptRule, hs.bound? hg hn]

/-- The rules agree, one by one. -/
theorem agree_rules : List.Forall₂ (Agree g root) (rules g (classMethods g root))
    (rules h (classMethods h root)) := by
  simp only [rules, List.forall₂_cons, List.forall₂_nil_left_iff, and_true]
  exact ⟨agree_literalRule hs, agree_collectionRule hs, agree_selfRule hs,
    agree_callResultRule hs hg, agree_callArgsRule hs hg, agree_binaryRule hs, agree_unaryRule hs,
    agree_lenRule hs, agree_indexRule hs, agree_fieldGetRule hs, agree_assignRule hs,
    agree_returnRule hs hg, agree_acceptRule hs hg, agree_operatorRule hs, agree_conditionRule hs⟩

/-- Every rule has one that agrees with it. -/
theorem exists_agreeing {r : FlowRule} (hr : r ∈ rules g (classMethods g root)) :
    ∃ r' ∈ rules h (classMethods h root), Agree g root r r' := by
  have hall := agree_rules hs hg
  generalize rules g (classMethods g root) = rs at hr hall
  generalize rules h (classMethods h root) = rs' at hall
  induction hall with
  | nil => cases hr
  | @cons r₀ r₀' rs rs' hagree _ ih =>
    rcases List.mem_cons.1 hr with rfl | hr
    · exact ⟨r₀', List.mem_cons_self, hagree⟩
    · obtain ⟨r', hr', hagree⟩ := ih hr
      exact ⟨r', List.mem_cons_of_mem _ hr', hagree⟩

end Rules

/-! ## Seeds -/

section Seeds

variable (hs : ReadsAs g h root) {allow : Bool}

include hs

theorem mem_nodesOf_iff (kind : ExprKind) : n ∈ nodesOf h root kind ↔ n ∈ nodesOf g root kind := by
  simp only [nodesOf, Graph.mem_reachable, hs.below, decide_eq_true_eq]
  exact and_congr_right fun hn => by rw [hs.kind n hn]

/-- Calls, references and names are found at the same nodes. -/
theorem mem_filterMap_nodesOf_iff {α : Type} {k : ExprKind} {f f' : NodeId → Option α} {x : α}
    (hf : ∀ n, g.Below root n → f' n = f n) :
    x ∈ (nodesOf h root k).filterMap f' ↔ x ∈ (nodesOf g root k).filterMap f := by
  simp only [List.mem_filterMap, mem_nodesOf_iff hs]
  refine exists_congr fun n => and_congr_right fun hn => ?_
  rw [hf n (Graph.mem_reachable.1 hn).1]

/-- The same functions are reached by known calls. -/
theorem mem_directlyCalled_iff : n ∈ directlyCalled h root ↔ n ∈ directlyCalled g root := by
  have hrefs : ∀ k, n ∈ (nodesOf h root k).filterMap (fun m => h.child? m .ref) ↔
      n ∈ (nodesOf g root k).filterMap fun m => g.child? m .ref := fun k =>
    mem_filterMap_nodesOf_iff hs fun m hm => hs.child m .ref hm rfl (by decide)
  have hnames : ∀ name, name ∈ (nodesOf h root .methodCall).filterMap h.name? ↔
      name ∈ (nodesOf g root .methodCall).filterMap g.name? := fun name =>
    mem_filterMap_nodesOf_iff hs hs.name
  simp only [directlyCalled, List.mem_filter, List.mem_append, hrefs, hs.methods, decide_not]
  refine and_congr (or_congr Iff.rfl (and_congr_right fun hn => ?_)) Iff.rfl
  rw [hs.name n (Graph.mem_reachable.1 hn).1]
  simp only [hnames]

theorem seedInit_eq (hn : g.Below root n) : seedInit h n = seedInit g n := by
  rw [seedInit, seedInit, hs.child n .target hn rfl (by decide),
    hs.child n .declaredType hn rfl (by decide)]
  rcases g.child? n .target with _ | target
  · rfl
  · cases htype : g.child? n .declaredType with
    | none => rfl
    | some type => simp only [hs.annotation type (hn.of_child? htype rfl)]

/-- A return slot has the same declared type. -/
theorem declaredReturn?_congr (hg : Resolved g root) (hn : g.Below root n)
    (hkind : g.kind n = .decl .returnSlot) : declaredReturn? h n = declaredReturn? g n := by
  have hparents : h.parents n = g.parents n :=
    hs.parents n hn (by simp [hkind, NodeKind.category]) (by simp [hkind])
  rw [declaredReturn?, declaredReturn?, hparents]
  have hfs : ∀ fs : List NodeId, (∀ f ∈ fs, g.Below root f) →
      (fs.findSome? fun f => h.child? f .returnType) =
        fs.findSome? fun f => g.child? f .returnType := by
    intro fs
    induction fs with
    | nil => exact fun _ => rfl
    | cons f fs ih =>
      intro hfs
      obtain ⟨hf, hfs⟩ := List.forall_mem_cons.1 hfs
      rw [List.findSome?_cons, List.findSome?_cons,
        hs.child f .returnType hf rfl (by decide), ih hfs]
  exact hfs _ fun f hf => hg.below_parent hn hf

/-- The same is asked for by a declaration. -/
theorem seedNode_eq (hg : Resolved g root) (hn : g.Below root n) :
    seedNode h (directlyCalled h root) allow n = seedNode g (directlyCalled g root) allow n := by
  have hset : ∀ {type : NodeId} {r : Role}, g.child? n r = some type → r.isStructural →
      h.annotationSet type = g.annotationSet type := fun htype hr =>
    hs.annotation _ (hn.of_child? htype hr)
  rw [seedNode, seedNode, hs.kind n hn, hs.child n .declaredType hn rfl (by decide),
    hs.child n .ref hn rfl (by decide)]
  split
  · next hkind =>
    have hparents : h.parents n = g.parents n :=
      hs.parents n hn (by simp [hkind, NodeKind.category]) (by simp [hkind])
    cases htype : g.child? n .declaredType with
    | some type => simp only [hset htype rfl]
    | none => simp only [seedUndeclared, hparents, mem_directlyCalled_iff hs]
  · cases htype : g.child? n .declaredType with
    | some type => simp only [hset htype rfl]
    | none => rfl
  · next hkind =>
    rw [declaredReturn?_congr hs hg hn hkind]
    cases hdeclared : declaredReturn? g n with
    | none => rfl
    | some type =>
      obtain ⟨f, hf, htype⟩ := List.exists_of_findSome?_eq_some hdeclared
      simp only [hs.annotation type ((hg.below_parent hn hf).of_child? htype rfl)]
  · cases hd : g.child? n .ref with
    | none => rfl
    | some d => simp only [Option.any_some, hs.kind d (hg.tied n hn d hd).1]
  · rfl

end Seeds

end Flow

end TypeFlow
