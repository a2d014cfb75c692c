import TypeFlow.Proofs.Graph.Reach
import TypeFlow.Proofs.Graph.WellKept
/-!
# The shape of resolved programs

What a parsed program looks like once its surface forms are gone and its references are tied
(`Resolved`): the nodes below its root form a tree, every node has the parts that its kind has,
each of them of a fitting kind, and every reference leads to a definition of the program.
-/

namespace TypeFlow

namespace Program

/-! ## Kinds and their parts -/

/-- Expressions that yield a value; the entry of a map is none. -/
def isValue : NodeKind → Bool
  | .expr .mapEntry => false
  | .expr _ => true
  | _ => false

/-- Whether a node of the first kind may hold one of the second in a role. -/
def fits : NodeKind → Role → NodeKind → Bool
  | .decl .program, .item _, k => k = .decl .function || k = .decl .classDecl
  | .decl .classDecl, .item _, k => k = .decl .field || k = .decl .function
  | .decl .function, .item _, k => k = .decl .param
  | .decl .function, .body, k => k = .stmt .block
  | .decl .function, .returnType, k => k.category = .type
  | .decl .function, .returnSlot, k => k = .decl .returnSlot
  | .decl .function, .locals, k => k = .decl .scope
  | .decl .scope, .item _, k => k = .decl .varDef
  | .decl .param, .declaredType, k => k.category = .type
  | .decl .field, .declaredType, k => k.category = .type
  | .decl .field, .value, k => isValue k
  | .stmt .block, .item _, k => k.category = .statement
  | .stmt .varInit, .declaredType, k => k.category = .type
  | .stmt .varInit, .target, k | .stmt .varInit, .value, k => isValue k
  | .stmt .assign, .target, k | .stmt .assign, .value, k => isValue k
  | .stmt .ret, .value, k | .stmt .exprStmt, .value, k => isValue k
  | .stmt .branch, .cond, k | .stmt .whileLoop, .cond, k => isValue k
  | .stmt .branch, .body, k | .stmt .branch, .otherwise, k => k = .stmt .block
  | .stmt .whileLoop, .body, k | .stmt .endlessLoop, .body, k => k = .stmt .block
  | .expr .mapLit, .item _, k => k = .expr .mapEntry
  | .expr .mapEntry, .key, k | .expr .mapEntry, .value, k => isValue k
  | .expr .listLit, .item _, k | .expr .setLit, .item _, k => isValue k
  | .expr .call, .item _, k | .expr .sysCall, .item _, k | .expr .dynCall, .item _, k
  | .expr .methodCall, .item _, k | .expr .objectInit, .item _, k => isValue k
  | .expr .methodCall, .receiver, k | .expr .fieldGet, .receiver, k => isValue k
  | .expr (.binary _), .left, k | .expr (.binary _), .right, k => isValue k
  | .expr (.unary _), .operand, k | .expr .len, .operand, k => isValue k
  | .expr .index, .value, k | .expr .index, .key, k => isValue k
  | .type .generic, .base, .type (.base _) => true
  | .type .generic, .arg, k => k.category = .type
  | _, _, _ => false

/-- The edges that every node of a kind has. -/
def required : NodeKind → List Role
  | .stmt .varInit | .stmt .assign => [.target, .value]
  | .stmt .branch | .stmt .whileLoop => [.cond]
  | .expr (.binary _) => [.left, .right]
  | .expr (.unary _) | .expr .len => [.operand]
  | .expr .index => [.value, .key]
  | .expr .methodCall | .expr .fieldGet => [.receiver]
  | .expr .ident | .expr .call | .expr .objectInit | .type .named => [.ref]
  | .type .generic => [.base, .arg]
  | _ => []

/-- The kinds whose nodes are asked for their names. -/
def isNamed : NodeKind → Bool
  | .expr .methodCall | .expr .fieldGet => true
  | _ => false

/-- Variables, as far as an identifier may stand for one. -/
def isVariable : NodeKind → Bool
  | .decl .param | .decl .field | .decl .varDef => true
  | _ => false

/-- Whether a reference of the first kind may stand for a definition of the second. -/
def refersTo : NodeKind → NodeKind → Bool
  | .expr .ident, k => isVariable k || k = .decl .function
  | .expr .fieldGet, k => k = .decl .field
  | .expr .call, k => k = .decl .function
  | .expr .dynCall, k => isVariable k
  | .expr .objectInit, k | .type .named, k => k = .decl .classDecl
  | _, _ => false

/-! ## What holds a node -/

/-- What holds a node of a kind, and in which role. Where one value stands any value may, and where
one type stands any type may, apart from the entries of maps and the bases of containers. -/
def heldBy (k : NodeKind) (r : Role) : NodeKind → Prop
  | .decl .function => r.isItem ∧ (k = .decl .program ∨ k = .decl .classDecl)
  | .decl .classDecl => r.isItem ∧ k = .decl .program
  | .decl .param | .decl .scope | .decl .returnSlot => k = .decl .function
  | .decl .field => k = .decl .classDecl
  | .decl .varDef => k = .decl .scope
  | .stmt _ => (k = .decl .function ∧ r = .body) ∨ ∃ s, k = .stmt s
  | .expr .mapEntry => k = .expr .mapLit
  | .expr _ => ∀ m, isValue m → fits k r m
  | .type (.base _) => (k = .type .generic ∧ r = .base) ∨ ∀ m, m.category = .type → fits k r m
  | .type _ => ∀ m, m.category = .type → fits k r m
  | .decl .program | .surface _ => False

theorem heldBy_of_isValue {k m : NodeKind} {r : Role} (hm : isValue m)
    (h : ∀ m, isValue m → fits k r m) : heldBy k r m := by
  cases m with
  | expr e => cases e <;> first | exact h | cases hm
  | _ => cases hm

theorem heldBy_of_type {k m : NodeKind} {r : Role} (hm : m.category = .type)
    (h : ∀ m, m.category = .type → fits k r m) : heldBy k r m := by
  cases m with
  | type t => cases t <;> first | exact Or.inr h | exact h
  | _ => cases hm

theorem heldBy_of_statement {s : StmtKind} {m : NodeKind} {r : Role}
    (hm : m.category = .statement) : heldBy (.stmt s) r m := by
  cases m with
  | stmt _ => exact Or.inr ⟨s, rfl⟩
  | _ => cases hm

theorem heldBy_of_program {m : NodeKind} {i : UInt32} (h : fits (.decl .program) (.item i) m) :
    heldBy (.decl .program) (.item i) m := by
  rcases (Bool.or_eq_true_iff.1 h).imp of_decide_eq_true of_decide_eq_true with rfl | rfl
  · exact ⟨rfl, Or.inl rfl⟩
  · exact ⟨rfl, rfl⟩

theorem heldBy_of_class {m : NodeKind} {i : UInt32} (h : fits (.decl .classDecl) (.item i) m) :
    heldBy (.decl .classDecl) (.item i) m := by
  rcases (Bool.or_eq_true_iff.1 h).imp of_decide_eq_true of_decide_eq_true with rfl | rfl
  · rfl
  · exact ⟨rfl, Or.inr rfl⟩

theorem heldBy_of_container {m : NodeKind} (h : fits (.type .generic) .base m) :
    heldBy (.type .generic) .base m := by
  cases m with
  | type t => cases t <;> first | exact Or.inl ⟨rfl, rfl⟩ | cases h
  | _ => cases h

/-- Read backwards, the table of what a node may hold tells what holds a node. -/
theorem heldBy_of_fits {k m : NodeKind} {r : Role} (h : fits k r m) : heldBy k r m := by
  cases k with
  | surface k => exact absurd h Bool.false_ne_true
  | decl k | stmt k | expr k | type k =>
    -- in most roles a kind holds nothing
    cases k <;> cases r <;> first
      | exact absurd h Bool.false_ne_true
      | exact heldBy_of_isValue h fun _ hm => hm
      | exact heldBy_of_type (of_decide_eq_true h) fun _ hm => decide_eq_true hm
      | exact heldBy_of_statement (of_decide_eq_true h)
      | exact heldBy_of_program h
      | exact heldBy_of_class h
      | exact heldBy_of_container h
      | (obtain rfl := of_decide_eq_true h; simp [heldBy])

/-- Where a value stands any value may stand. -/
theorem fits_of_isValue {k m m' : NodeKind} {r : Role} (h : fits k r m) (hm : isValue m)
    (hm' : isValue m') : fits k r m' := by
  have hheld := heldBy_of_fits h
  cases m with
  | expr e => cases e <;> first | exact hheld m' hm' | cases hm
  | _ => cases hm

/-! ## Resolved programs -/

/-- A program without surface forms whose references are tied. -/
structure Resolved (g : Graph) (root : NodeId) : Prop where
  kept : g.WellKept
  program : g.kind root = .decl .program
  top : g.parents root = []
  tree : ∀ n, g.Below root n → (g.parents n).length ≤ 1
  fits : ∀ n, g.Below root n → ∀ e ∈ g.outgoing n, e.role.isStructural →
    fits (g.kind n) e.role (g.kind e.node)
  complete : ∀ n, g.Below root n → ∀ r ∈ required (g.kind n), g.hasChild n r
  named : ∀ n, g.Below root n → isNamed (g.kind n) → (g.name? n).isSome
  tied : ∀ n, g.Below root n → ∀ d, g.child? n .ref = some d →
    g.Below root d ∧ refersTo (g.kind n) (g.kind d)

/-! ## Deciding the shape -/

/-- The records of one node agree with those at the other ends of its edges. -/
def KeptAt (g : Graph) (n : NodeId) : Prop :=
  (∀ e ∈ g.outgoing n, (g.outgoing n).count e = (g.incoming e.node).count ⟨e.role, n⟩) ∧
    (∀ e ∈ g.incoming n, (g.outgoing e.node).count ⟨e.role, n⟩ = (g.incoming n).count e) ∧
      ((g.outgoing n).map Edge.role).Nodup

instance (g : Graph) (n : NodeId) : Decidable (KeptAt g n) := inferInstanceAs (Decidable (_ ∧ _))

theorem wellKept_iff {g : Graph} : g.WellKept ↔ ∀ i < g.size, KeptAt g ⟨i⟩ := by
  refine ⟨fun h i _ => ⟨fun e _ => h.balanced _ _ _, fun e _ => h.balanced _ _ _, h.unique _⟩,
    fun h => ?_⟩
  have hkept : ∀ n, KeptAt g n := by
    intro n
    by_cases hn : g.has n = true
    · exact h n.index (by simpa [Graph.has] using hn)
    · have hn : g.has n = false := by simpa using hn
      simp [KeptAt, Graph.outgoing_of_not_has hn, Graph.incoming_of_not_has hn]
  refine ⟨fun s d r => ?_, fun s => (hkept s).2.2⟩
  by_cases hout : (⟨r, d⟩ : Edge) ∈ g.outgoing s
  · exact (hkept s).1 _ hout
  · by_cases hin : (⟨r, s⟩ : Edge) ∈ g.incoming d
    · exact (hkept d).2.1 _ hin
    · rw [List.count_eq_zero.2 hout, List.count_eq_zero.2 hin]

theorem resolved_iff {g : Graph} {root : NodeId} : Resolved g root ↔
    (∀ i < g.size, KeptAt g ⟨i⟩) ∧ g.kind root = .decl .program ∧ g.parents root = [] ∧
      ∀ n ∈ g.reachable root fun _ => true,
        (g.parents n).length ≤ 1 ∧
          (∀ e ∈ g.outgoing n, e.role.isStructural → fits (g.kind n) e.role (g.kind e.node)) ∧
          (∀ r ∈ required (g.kind n), g.hasChild n r) ∧
          (isNamed (g.kind n) → (g.name? n).isSome) ∧
          ∀ d ∈ g.child? n .ref,
            d ∈ (g.reachable root fun _ => true) ∧ refersTo (g.kind n) (g.kind d) := by
  simp only [← wellKept_iff, Graph.mem_reachable, and_true, Option.mem_def]
  exact ⟨fun h => ⟨h.kept, h.program, h.top, fun n hn => ⟨h.tree n hn, h.fits n hn,
      h.complete n hn, h.named n hn, h.tied n hn⟩⟩,
    fun ⟨hkept, hprogram, htop, h⟩ => ⟨hkept, hprogram, htop, fun n hn => (h n hn).1,
      fun n hn => (h n hn).2.1, fun n hn => (h n hn).2.2.1, fun n hn => (h n hn).2.2.2.1,
      fun n hn => (h n hn).2.2.2.2⟩⟩

instance (g : Graph) (root : NodeId) : Decidable (Resolved g root) :=
  decidable_of_iff _ resolved_iff.symm

end Program

end TypeFlow
