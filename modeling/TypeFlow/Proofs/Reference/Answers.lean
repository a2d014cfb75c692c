import TypeFlow.Proofs.Graph.Grows
import TypeFlow.Proofs.Graph.Reach
import TypeFlow.Proofs.Rule.Once
import TypeFlow.Reference
/-!
# What the rules of references answer

`Answer` says what the rules make of a node: its kind and its definition. A graph on which some of
the rules have fired is the collected one with some nodes answered (`Linked`), and the rules read
nothing of it that a firing changes. So each node is answered once (`firesOnce_rules`).
-/

namespace TypeFlow

open TypeFlow.Graph

/-! ## Patches that tie -/

namespace Graph

variable {h h' : Graph} {n m d : NodeId} {kind : NodeKind}

theorem ne_ref_of_isStructural {r : Role} (hr : r.isStructural) : r ≠ .ref := by
  rintro rfl
  cases hr

/-- The node is made to be of a kind or tied to a definition or both, and all else stays. -/
structure Marks (h : Graph) (n : NodeId) (kind : NodeKind) (d? : Option NodeId) (h' : Graph) :
    Prop where
  size : h'.size = h.size
  kind : ∀ m, h'.kind m = if m = n then kind else h.kind m
  payload : ∀ m, h'.payload m = h.payload m
  ref : ∀ m, h'.child? m .ref = if m = n then d? else h.child? m .ref
  outgoing : ∀ m, (h'.outgoing m).filter (·.role ≠ .ref) = (h.outgoing m).filter (·.role ≠ .ref)
  parents : ∀ m, h'.parents m = h.parents m
  kept : h.WellKept → (∀ d, d? = some d → h.has d) → h'.WellKept

theorem marks_setKind (hn : h.has n) (href : h.child? n .ref = none) (kind : NodeKind) :
    Marks h n kind none (h.setKind n kind) where
  size := size_update _
  kind m := by
    rw [Graph.kind, setKind, node_update]
    by_cases hm : m = n
    · simp [hm, hn]
    · simp [hm, Graph.kind]
  payload m := by
    rw [Graph.payload, setKind, node_update]
    split <;> rfl
  ref m := by
    rw [child?, outgoing_setKind]
    split
    · next hm => rw [hm, ← href, child?]
    · rfl
  outgoing m := by rw [outgoing_setKind]
  parents m := by rw [parents, incoming_setKind, parents]
  kept hg _ := wellKept_setKind hg _

theorem marks_setChild (hn : h.has n) (href : h.child? n .ref = none) (d : NodeId) :
    Marks h n (h.kind n) (some d) (h.setChild n .ref d) := by
  have hlink : h.setChild n .ref d = h.link n .ref d := by
    rw [setChild, removeChild, Option.map_eq_none_iff.1 href]
  rw [hlink]
  refine ⟨by simp [link, setIncoming, setOutgoing], fun m => ?_, fun m => payload_link,
    fun m => ?_, fun m => ?_, fun m => ?_, fun hg hd => ?_⟩
  · rw [kind_link]
    split
    · next hm => rw [hm]
    · rfl
  · simp [child?_link hn href]
  · rw [outgoing_link hn]
    split <;> simp
  · cases hd : h.has d with
    | true => rw [parents_link hd, if_neg (by simp [Role.isStructural])]
    | false =>
      -- nothing is recorded outside the graph
      have hin : (h.link n .ref d).incoming m = h.incoming m := by
        rw [link, incoming_setIncoming, incoming_setOutgoing]
        simp [hd]
      rw [parents, hin, parents]
  · exact hlink ▸ wellKept_setChild hg hn (hd d rfl) .ref

/-- The node may be made to be of a kind before. -/
theorem Marks.trans {h'' : Graph} {kind' : NodeKind} {d? : Option NodeId}
    (hm : Marks h n kind none h') (hm' : Marks h' n kind' d? h'') : Marks h n kind' d? h'' where
  size := hm'.size.trans hm.size
  kind m := by
    rw [hm'.kind, hm.kind]
    split <;> rfl
  payload m := (hm'.payload m).trans (hm.payload m)
  ref m := by
    rw [hm'.ref, hm.ref]
    split <;> rfl
  outgoing m := (hm'.outgoing m).trans (hm.outgoing m)
  parents m := (hm'.parents m).trans (hm.parents m)
  kept hg hd := hm'.kept (hm.kept hg nofun) fun d hd' => by
    rw [has, hm.size]
    exact hd d hd'

end Graph

namespace Reference

variable {s : Scopes} {c h h' : Graph} {n : NodeId} {kind : NodeKind} {d? : Option NodeId}
  {r : GraphRule} {p : Patch}

/-! ## Answers -/

/-- What the rules make of a node of the collected graph: its kind and its definition. -/
inductive Answer (s : Scopes) (c : Graph) (n : NodeId) : NodeKind → Option NodeId → Prop
  | ident {name : String} {d : NodeId} (hk : c.kind n = .expr .ident)
      (hname : c.name? n = some name)
      (hd : (s.lookup? c n name).or (s.function? name) = some d) :
      Answer s c n (.expr .ident) (some d)
  | ownField {name : String} {d : NodeId} (hk : c.kind n = .expr .fieldGet)
      (hd : ownField? s c n name = some d) : Answer s c n (.expr .fieldGet) (some d)
  | sysCall {name : String} (hk : c.kind n = .expr .call) (hname : c.name? n = some name)
      (hb : isBuiltin name) : Answer s c n (.expr .sysCall) none
  | dynCall {name : String} {d : NodeId} (hk : c.kind n = .expr .call)
      (hd : s.lookup? c n name = some d) : Answer s c n (.expr .dynCall) (some d)
  | call {name : String} {d : NodeId} (hk : c.kind n = .expr .call)
      (hd : s.function? name = some d) : Answer s c n (.expr .call) (some d)
  | objectInit {name : String} {d : NodeId} (hk : c.kind n = .expr .call)
      (hd : s.class? name = some d) : Answer s c n (.expr .objectInit) (some d)
  | base (hk : c.kind n = .type .named) (b : BaseType) : Answer s c n (.type (.base b)) none
  | dynamic (hk : c.kind n = .type .named) : Answer s c n (.type .dynamic) none
  | named {name : String} {d : NodeId} (hk : c.kind n = .type .named)
      (hd : s.class? name = some d) : Answer s c n (.type .named) (some d)

/-- The kinds that no answer leads to or from. -/
def isSteady : NodeKind → Bool
  | .expr .call | .expr .sysCall | .expr .dynCall | .expr .objectInit => false
  | .type (.base _) | .type .dynamic | .type .named => false
  | _ => true

theorem Answer.steady (ha : Answer s c n kind d?) : kind = c.kind n ∨
    isSteady kind = false ∧ isSteady (c.kind n) = false := by
  cases ha with
  | ident hk _ _ | ownField hk _ => exact Or.inl hk.symm
  | sysCall hk _ _ | dynCall hk _ | call hk _ | objectInit hk _ | base hk | dynamic hk
  | named hk _ =>
    rw [hk]
    exact Or.inr ⟨rfl, rfl⟩

/-- An answer is more than nothing. -/
theorem Answer.not_open : ¬Answer s c n (c.kind n) none := by
  generalize hkind : c.kind n = kind
  intro ha
  cases ha <;> simp_all

theorem Answer.has (ha : Answer s c n kind d?) : c.has n := by
  by_contra hn
  have hkind : c.kind n = .stmt .block := kind_of_not_has (by simpa using hn)
  cases ha <;> simp_all

/-- An answered node that still has a kind of references has its definition. -/
theorem Answer.isSome (ha : Answer s c n kind d?)
    (hk : kind = .expr .ident ∨ kind = .expr .fieldGet ∨ kind = .expr .call ∨ kind = .type .named) :
    d?.isSome := by
  cases ha with
  | sysCall | base | dynamic => simp at hk
  | _ => rfl

/-- A graph that differs from another one in ties, and in the kinds of what is tied or named. -/
structure Retied (c h : Graph) : Prop where
  size : h.size = c.size
  kind : ∀ n k, isSteady k → (h.kind n = k ↔ c.kind n = k)
  payload : ∀ n, h.payload n = c.payload n
  outgoing : ∀ n, (h.outgoing n).filter (·.role ≠ .ref) = (c.outgoing n).filter (·.role ≠ .ref)

namespace Retied

theorem refl (c : Graph) : Retied c c := ⟨rfl, fun _ _ _ => Iff.rfl, fun _ => rfl, fun _ => rfl⟩

theorem marks (hc : Retied c h) (ha : Answer s h n kind d?) (hm : Marks h n kind d? h') :
    Retied c h' where
  size := hm.size.trans hc.size
  kind m q hq := by
    rw [← hc.kind m q hq, hm.kind]
    split
    · next heq =>
      subst heq
      rcases ha.steady with hsame | ⟨hk, hk'⟩
      · rw [hsame]
      · constructor <;> rintro rfl <;> simp_all
    · exact Iff.rfl
  payload m := (hm.payload m).trans (hc.payload m)
  outgoing m := (hm.outgoing m).trans (hc.outgoing m)

theorem mem_outgoing_iff (hc : Retied c h) {e : Edge} (he : e.role.isStructural) (n : NodeId) :
    e ∈ h.outgoing n ↔ e ∈ c.outgoing n := by
  have hmem : ∀ es : List Edge, e ∈ es ↔ e ∈ es.filter (·.role ≠ .ref) := fun es => by
    simp [ne_ref_of_isStructural he]
  rw [hmem, hc.outgoing, ← hmem]

theorem below_iff (hc : Retied c h) (root n : NodeId) : h.Below root n ↔ c.Below root n :=
  ⟨fun hn => hn.mono fun m e he hs => ⟨e, (hc.mem_outgoing_iff hs m).1 he, hs, rfl⟩,
    fun hn => hn.mono fun m e he hs => ⟨e, (hc.mem_outgoing_iff hs m).2 he, hs, rfl⟩⟩

end Retied

/-- The collected graph with some of its nodes answered. -/
structure Linked (s : Scopes) (c h : Graph) : Prop where
  size : h.size = c.size
  payload : ∀ n, h.payload n = c.payload n
  outgoing : ∀ n, (h.outgoing n).filter (·.role ≠ .ref) = c.outgoing n
  parents : ∀ n, h.parents n = c.parents n
  answer : ∀ n, (h.kind n = c.kind n ∧ h.child? n .ref = none) ∨
    Answer s c n (h.kind n) (h.child? n .ref)

/-- A node that is answered. -/
def Spent (c h : Graph) (n : NodeId) : Prop := ¬(h.kind n = c.kind n ∧ h.child? n .ref = none)

namespace Linked

variable (hl : Linked s c h)
include hl

theorem has_eq (n : NodeId) : h.has n = c.has n := by rw [has, has, hl.size]

theorem name?_eq (n : NodeId) : h.name? n = c.name? n := by rw [name?, name?, hl.payload]

theorem requireName_eq (n : NodeId) : h.requireName n = c.requireName n := by
  rw [requireName, requireName, hl.name?_eq]

theorem child?_eq {q : Role} (hq : q ≠ .ref) (n : NodeId) : h.child? n q = c.child? n q := by
  rw [child?, child?, ← hl.outgoing n, List.find?_filter]
  congr 2
  funext e
  by_cases he : e.role = q <;> simp [he, hq]

theorem items_eq (n : NodeId) : h.items n = c.items n := by
  rw [items, itemEdges, items, itemEdges, ← hl.outgoing n, List.filter_filter]
  congr 3
  funext e
  by_cases he : e.role = .ref <;> simp [he, Role.isItem, Role.index?]

theorem kind_iff {k : NodeKind} (hk : isSteady k) (n : NodeId) : h.kind n = k ↔ c.kind n = k := by
  rcases hl.answer n with ⟨hsame, -⟩ | ha
  · rw [hsame]
  · rcases ha.steady with hsame | ⟨hs, hs'⟩
    · rw [hsame]
    · constructor <;> rintro rfl <;> simp_all

theorem isScopeHost_eq (n : NodeId) : (h.kind n).isScopeHost = (c.kind n).isScopeHost := by
  have hhost : ∀ k : NodeKind, k.isScopeHost =
      (k = .decl .program || k = .decl .function || k = .decl .classDecl) := by
    intro k
    cases k with
    | decl k => cases k <;> rfl
    | _ => rfl
  simp only [hhost, hl.kind_iff (k := .decl _) rfl]

theorem nearestAncestor?_eq {p q : NodeId → Bool} (hpq : ∀ m, p m = q m) (n : NodeId) :
    h.nearestAncestor? n p = c.nearestAncestor? n q := by
  have hvisits : h.visits (.up n) = c.visits (.up n) := by
    have hascend : h.ascend (.up n) (c.size + 1) [n] [n] = c.ascend (.up n) (c.size + 1) [n] [n] :=
      ascend_congr (P := fun _ => True) (fun _ _ _ _ => trivial) (fun m _ => hl.parents m)
        (fun _ _ => trivial) fun _ _ => trivial
    rw [visits, visits, hl.size]
    exact congrArg (List.filter (· ≠ n)) hascend
  rw [nearestAncestor?, first?, hvisits, funext hpq]
  rfl

theorem lookup?_eq (n : NodeId) (name : String) : s.lookup? h n name = s.lookup? c n name := by
  rw [Scopes.lookup?, Scopes.lookup?, hl.nearestAncestor?_eq hl.isScopeHost_eq]

theorem ownField?_eq (n : NodeId) (name : String) :
    ownField? s h n name = ownField? s c n name := by
  rw [ownField?, ownField?, hl.nearestAncestor?_eq fun m =>
    decide_eq_decide.2 (hl.kind_iff (k := .decl .classDecl) rfl m)]

theorem retied : Retied c h where
  size := hl.size
  kind n _ hk := hl.kind_iff hk n
  payload := hl.payload
  outgoing n := by
    rw [← hl.outgoing n, List.filter_filter]
    exact List.filter_congr fun e _ => (Bool.and_self _).symm

theorem below_iff (root : NodeId) : h.Below root n ↔ c.Below root n := hl.retied.below_iff root n

/-- An answered node is not loose. -/
theorem isLoose_of_spent (hn : Spent c h n) {k : NodeKind}
    (hk : k = .expr .ident ∨ k = .expr .fieldGet ∨ k = .expr .call ∨ k = .type .named) :
    isLoose h n k = false := by
  rcases hl.answer n with hopen | ha
  · exact absurd hopen hn
  · by_contra hloose
    obtain ⟨hkind, hnone⟩ : h.kind n = k ∧ h.child? n .ref = none := by
      simpa [isLoose, hasChild] using hloose
    have hsome := ha.isSome (hkind ▸ hk)
    rw [hnone] at hsome
    cases hsome

end Linked

theorem isLoose_of_not_spent (hn : ¬Spent c h n) (hc : c.child? n .ref = none) (k : NodeKind) :
    isLoose h n k = isLoose c n k := by
  obtain ⟨hkind, href⟩ := not_not.1 hn
  rw [isLoose, isLoose, hasChild, hasChild, hkind, href, hc]

/-! ## The rules -/

theorem fire?_of_spent (hl : Linked s c h) (hn : Spent c h n) (hr : r ∈ rules s) :
    r.fire? h n = .ok none := by
  have hloose : r.applies h n = false := by
    simp only [rules, List.mem_cons, List.not_mem_nil, or_false] at hr
    rcases hr with rfl | rfl | rfl | rfl
    · exact hl.isLoose_of_spent hn (by simp)
    · simp [selfFieldRule, hl.isLoose_of_spent hn (k := .expr .fieldGet) (by simp)]
    · exact hl.isLoose_of_spent hn (by simp)
    · exact hl.isLoose_of_spent hn (by simp)
  rw [Rule.fire?, hloose]
  rfl

theorem fire?_of_not_spent (hl : Linked s c h) (hn : ¬Spent c h n) (hc : c.child? n .ref = none)
    (hr : r ∈ rules s) : r.fire? h n = r.fire? c n := by
  have hloose := isLoose_of_not_spent hn hc
  simp only [rules, List.mem_cons, List.not_mem_nil, or_false] at hr
  rcases hr with rfl | rfl | rfl | rfl
  · simp only [Rule.fire?, identRule, hloose, hl.requireName_eq, hl.lookup?_eq]
    rfl
  · have hself : ∀ m, decide (h.kind m = .expr .selfRef) = decide (c.kind m = .expr .selfRef) :=
      fun m => decide_eq_decide.2 (hl.kind_iff rfl m)
    simp only [Rule.fire?, selfFieldRule, hloose, hl.requireName_eq, hl.ownField?_eq,
      hl.child?_eq (q := .receiver) nofun, hself]
    rfl
  · simp only [Rule.fire?, callRule, hloose, hl.requireName_eq, hl.lookup?_eq]
    rfl
  · simp only [Rule.fire?, namedTypeRule, hloose, hl.requireName_eq]
    rfl

theorem local_fire? (hr : r ∈ rules s) (g : Graph) (n : NodeId) : Local (r.fire? g n) := by
  unfold Rule.fire?
  split
  · simp only [rules, List.mem_cons, List.not_mem_nil, or_false] at hr
    rcases hr with rfl | rfl | rfl | rfl
    · refine (g.local_requireName n).bind fun name => ?_
      split
      · exact local_ok _
      · exact local_error rfl
    · refine (g.local_requireName n).bind fun name => ?_
      split
      · exact local_ok _
      · exact local_error rfl
    · refine (g.local_requireName n).bind fun name => ?_
      split
      · exact local_pure _
      · split <;> exact local_pure _
    · refine (g.local_requireName n).bind fun name => ?_
      split
      · exact local_pure _
      · split
        · exact local_pure _
        · split <;> exact local_pure _
  · exact local_ok _

/-! ## Their patches -/

/-- The patches that make a node to be of a kind or tie it to a definition or both. -/
inductive Marking (g : Graph) (n : NodeId) : NodeKind → Option NodeId → Patch → Prop
  | tie (d : NodeId) : Marking g n (g.kind n) (some d) (Draft.patch (tie n d))
  | kind (k : NodeKind) : Marking g n k none (Draft.patch (Draft.setKind n k))
  | both (k : NodeKind) (d : NodeId) :
    Marking g n k (some d) (Draft.patch (do Draft.setKind n k; Reference.tie n d))

/-- Such a patch marks its node. -/
theorem Marking.run_commit (hp : Marking h n kind d? p) (hn : h.has n)
    (href : h.child? n .ref = none) :
    ∃ h', Marks h n kind d? h' ∧ (Graph.commit p).run h = (.ok (), h') := by
  cases hp with
  | tie d => exact ⟨_, marks_setChild hn href d, rfl⟩
  | kind => exact ⟨_, marks_setKind hn href kind, rfl⟩
  | both _ d =>
    have hm := marks_setKind hn href kind
    have hk : (h.setKind n kind).kind n = kind := by rw [hm.kind, if_pos rfl]
    have hm' := marks_setChild (by rwa [has, hm.size]) (by rw [hm.ref, if_pos rfl]) d
    rw [hk] at hm'
    exact ⟨_, hm.trans hm', rfl⟩

theorem identRule_answer (h : (identRule s).fire? c n = .ok (some p)) :
    ∃ kind d?, Answer s c n kind d? ∧ Marking c n kind d? p := by
  unfold Rule.fire? at h
  split at h
  · next happlies =>
    have hk : c.kind n = .expr .ident := by
      simpa using (Bool.and_eq_true_iff.1 happlies).1
    obtain ⟨name, hname, h⟩ := Run.bind_eq_ok.1 h
    split at h
    · next d hd =>
      cases h
      exact ⟨_, _, hk ▸ .ident hk (requireName_eq_ok.1 hname) hd, .tie d⟩
    · cases h
  · cases h

theorem selfFieldRule_answer (h : (selfFieldRule s).fire? c n = .ok (some p)) :
    ∃ kind d?, Answer s c n kind d? ∧ Marking c n kind d? p := by
  unfold Rule.fire? at h
  split at h
  · next happlies =>
    have hk : c.kind n = .expr .fieldGet := by
      simpa using (Bool.and_eq_true_iff.1 (Bool.and_eq_true_iff.1 happlies).1).1
    obtain ⟨name, -, h⟩ := Run.bind_eq_ok.1 h
    split at h
    · next d hd =>
      cases h
      exact ⟨_, _, hk ▸ .ownField hk hd, .tie d⟩
    · cases h
  · cases h

theorem callRule_answer (h : (callRule s).fire? c n = .ok (some p)) :
    ∃ kind d?, Answer s c n kind d? ∧ Marking c n kind d? p := by
  unfold Rule.fire? at h
  split at h
  · next happlies =>
    have hk : c.kind n = .expr .call := by
      simpa using (Bool.and_eq_true_iff.1 happlies).1
    obtain ⟨name, hname, h⟩ := Run.bind_eq_ok.1 h
    split at h
    · next hb =>
      cases h
      exact ⟨_, _, .sysCall hk (requireName_eq_ok.1 hname) hb, .kind _⟩
    · split at h
      · next d hd =>
        cases h
        exact ⟨_, _, .dynCall hk hd, .both _ d⟩
      · next d _ hd =>
        cases h
        exact ⟨_, _, hk ▸ .call hk hd, .tie d⟩
      · next d _ _ hd =>
        cases h
        exact ⟨_, _, .objectInit hk hd, .both _ d⟩
      · cases h
  · cases h

theorem namedTypeRule_answer (h : (namedTypeRule s).fire? c n = .ok (some p)) :
    ∃ kind d?, Answer s c n kind d? ∧ Marking c n kind d? p := by
  unfold Rule.fire? at h
  split at h
  · next happlies =>
    have hk : c.kind n = .type .named := by
      simpa using (Bool.and_eq_true_iff.1 happlies).1
    obtain ⟨name, -, h⟩ := Run.bind_eq_ok.1 h
    split at h
    · next b _ =>
      cases h
      exact ⟨_, _, .base hk b, .kind _⟩
    · split at h
      · cases h
        exact ⟨_, _, .dynamic hk, .kind _⟩
      · split at h
        · next d hd =>
          cases h
          exact ⟨_, _, hk ▸ .named hk hd, .tie d⟩
        · cases h
  · cases h

/-- A patch of a rule marks its node with an answer, also where other nodes are answered. -/
theorem answer_of_fire? (hr : r ∈ rules s) (hfire : r.fire? c n = .ok (some p))
    (hhas : h.has n = c.has n) (hkind : h.kind n = c.kind n) (href : h.child? n .ref = none) :
    ∃ kind d? h', Answer s c n kind d? ∧ Marks h n kind d? h' ∧
      (Graph.commit p).run h = (.ok (), h') := by
  obtain ⟨kind, d?, ha, hp⟩ : ∃ kind d?, Answer s c n kind d? ∧ Marking c n kind d? p := by
    simp only [rules, List.mem_cons, List.not_mem_nil, or_false] at hr
    rcases hr with rfl | rfl | rfl | rfl
    · exact identRule_answer hfire
    · exact selfFieldRule_answer hfire
    · exact callRule_answer hfire
    · exact namedTypeRule_answer hfire
  have hp' : Marking h n kind d? p := by
    cases hp with
    | tie d => exact hkind ▸ .tie d
    | kind => exact .kind kind
    | both _ d => exact .both kind d
  obtain ⟨h', hm, hrun⟩ := hp'.run_commit (hhas ▸ ha.has) href
  exact ⟨kind, d?, h', ha, hm, hrun⟩

theorem linked_refl (hc : c.Untied) : Linked s c c where
  size := rfl
  payload _ := rfl
  outgoing n := List.filter_eq_self.2 fun e he => by simpa using hc n e he
  parents _ := rfl
  answer n := Or.inl ⟨rfl, hc.child?_ref n⟩

/-- Marking a node with an answer links one node more. -/
theorem Linked.marks (hl : Linked s c h) (ha : Answer s c n kind d?) (hm : Marks h n kind d? h') :
    Linked s c h' where
  size := hm.size.trans hl.size
  payload m := (hm.payload m).trans (hl.payload m)
  outgoing m := (hm.outgoing m).trans (hl.outgoing m)
  parents m := (hm.parents m).trans (hl.parents m)
  answer m := by
    rw [hm.kind, hm.ref]
    by_cases hmn : m = n
    · subst hmn
      rw [if_pos rfl, if_pos rfl]
      exact Or.inr ha
    · rw [if_neg hmn, if_neg hmn]
      exact hl.answer m

/-- A rule that fires at a linked node marks it with an answer. -/
theorem marks_of_fire? (hc : c.Untied) (hl : Linked s c h) (hr : r ∈ rules s)
    (hfire : r.fire? h n = .ok (some p)) :
    ∃ kind d? h', Answer s c n kind d? ∧ Marks h n kind d? h' ∧
      (Graph.commit p).run h = (.ok (), h') := by
  by_cases hn : Spent c h n
  · rw [fire?_of_spent hl hn hr] at hfire
    cases hfire
  · rw [fire?_of_not_spent hl hn (hc.child?_ref n) hr] at hfire
    obtain ⟨hkind, href⟩ := not_not.1 hn
    exact answer_of_fire? hr hfire (hl.has_eq n) hkind href

/-- Where a rule fails at a node, it does so on the collected graph. -/
theorem fire?_of_fails (hc : c.Untied) (hl : Linked s c h) (hr : r ∈ rules s) {fault : Fault}
    (hfails : Rule.Fails Graph.commit r n h fault h') : r.fire? c n = .error fault := by
  rcases hfails with ⟨hfire, -⟩ | ⟨p, hfire, hcommit⟩
  · by_cases hn : Spent c h n
    · rw [fire?_of_spent hl hn hr] at hfire
      cases hfire
    · rwa [fire?_of_not_spent hl hn (hc.child?_ref n) hr] at hfire
  · obtain ⟨kind, d?, k, -, -, hrun⟩ := marks_of_fire? hc hl hr hfire
    rw [hrun] at hcommit
    cases (Run.outcome_eq.1 hcommit).1

/-- Each node is answered once, and no answer changes what the rules have to do elsewhere. -/
theorem firesOnce_rules (hc : c.Untied) :
    Rule.FiresOnce Graph.commit (rules s) c (Linked s c) (Spent c) := by
  refine ⟨fun r hr n h h' hl ⟨p, hfire, hcommit⟩ => ?_,
    fun r hr n h hl hn => fire?_of_spent hl hn hr,
    fun r hr n h hl hn => fire?_of_not_spent hl hn (hc.child?_ref n) hr,
    fun r hr n h fault h' hl hfails => ?_⟩
  · obtain ⟨kind, d?, k, ha, hm, hrun⟩ := marks_of_fire? hc hl hr hfire
    obtain rfl : k = h' := by
      rw [hrun] at hcommit
      exact (Run.outcome_eq.1 hcommit).2
    have hspent : Spent c k n := by
      rintro ⟨hkind, href⟩
      rw [hm.kind, if_pos rfl] at hkind
      rw [hm.ref, if_pos rfl] at href
      exact (hkind ▸ href ▸ ha).not_open
    refine ⟨hl.marks ha hm, hspent, fun m hm' hopen => ?_⟩
    by_cases hmn : m = n
    · exact hspent (hmn ▸ hopen)
    · rw [hm.kind, hm.ref, if_neg hmn, if_neg hmn] at hopen
      exact hm' hopen
  · refine ⟨local_fire? hr c n fault (fire?_of_fails hc hl hr hfails), ?_⟩
    rcases hfails with ⟨-, rfl⟩ | ⟨p, hfire, hcommit⟩
    · exact hl
    · obtain ⟨kind, d?, k, -, -, hrun⟩ := marks_of_fire? hc hl hr hfire
      rw [hrun] at hcommit
      cases (Run.outcome_eq.1 hcommit).1

end Reference

end TypeFlow
