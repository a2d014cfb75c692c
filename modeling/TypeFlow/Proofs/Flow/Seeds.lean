import TypeFlow.Proofs.Flow.Shuffle
import TypeFlow.Proofs.Flow.Slots
/-!
# Seeds of shuffled programs

Seeding asks for what each declaration says. On a program with its statements in another order the
same is asked for (`mem_seedRequests_iff`), if anything: seeding fails only at a declared type that
denotes no set (`badType_of_seedRequests`), and then it fails on both programs. After it, the
declared results of functions are known to denote sets (`declared_of_seedRequests`).
-/

namespace TypeFlow

open TypeSet Program

namespace Program

/-- A declared type of the program that denotes no set, and why it does not. -/
def BadType (g : Graph) (root : NodeId) (fault : Fault) : Prop :=
  ∃ n type, g.Below root n ∧
    (g.child? n .declaredType = some type ∨ g.child? n .returnType = some type) ∧
      g.annotationSet type = .error fault

end Program

namespace Flow

/-! ## Lists of computations -/

section Lists

variable {α : Type} {f : α → Except Fault (List Request)} {xs : List α}
  {qss : List (List Request)} {q : Request}

theorem mem_flatten_of_mapM (h : xs.mapM f = .ok qss) :
    q ∈ qss.flatten ↔ ∃ x ∈ xs, ∃ qs, f x = .ok qs ∧ q ∈ qs := by
  constructor
  · intro hq
    obtain ⟨qs, hqs, hq⟩ := List.mem_flatten.1 hq
    obtain ⟨x, hx, hfx⟩ := mem_of_mapM_eq_ok h qs hqs
    exact ⟨x, hx, qs, hfx, hq⟩
  · rintro ⟨x, hx, qs, hfx, hq⟩
    obtain ⟨qs', hqs', hfx'⟩ := exists_of_mapM_eq_ok h x hx
    obtain rfl := Except.ok.inj (hfx.symm.trans hfx')
    exact List.mem_flatten.2 ⟨qs, hqs', hq⟩

end Lists

/-! ## What seeding asks for -/

section Seeds

variable {g : Graph} {root n : NodeId} {allow : Bool} {requests : List Request} {q : Request}
  {fault : Fault}

/-- What is asked for by declarations or first assignments. -/
theorem mem_seedRequests (h : seedRequests g root allow (Inference.typable g root) = .ok requests) :
    q ∈ requests ↔
      (∃ n, g.Below root n ∧ (g.kind n).isTypable ∧
        ∃ qs, seedNode g (directlyCalled g root) allow n = .ok qs ∧ q ∈ qs) ∨
      ∃ n, g.Below root n ∧ g.kind n = .stmt .varInit ∧ ∃ qs, seedInit g n = .ok qs ∧ q ∈ qs := by
  obtain ⟨declared, hdeclared, h⟩ := Run.bind_eq_ok.1 h
  obtain ⟨inits, hinits, h⟩ := Run.bind_eq_ok.1 h
  obtain rfl := Run.pure_eq_ok.1 h
  rw [List.mem_append, mem_flatten_of_mapM hdeclared, mem_flatten_of_mapM hinits]
  simp only [Inference.typable, Graph.mem_reachable, and_assoc, decide_eq_true_eq]

/-- Seeding reads every declaration. -/
theorem succeeds_seedNode
    (h : seedRequests g root allow (Inference.typable g root) = .ok requests)
    (hn : g.Below root n) (hkind : (g.kind n).isTypable) :
    Succeeds (seedNode g (directlyCalled g root) allow n) := by
  obtain ⟨declared, hdeclared, -⟩ := Run.bind_eq_ok.1 h
  obtain ⟨qs, -, hqs⟩ := exists_of_mapM_eq_ok hdeclared n (Graph.mem_reachable.2 ⟨hn, hkind⟩)
  exact ⟨qs, hqs⟩

/-- Seeding reads every first assignment. -/
theorem succeeds_seedInit
    (h : seedRequests g root allow (Inference.typable g root) = .ok requests)
    (hn : g.Below root n) (hkind : g.kind n = .stmt .varInit) : Succeeds (seedInit g n) := by
  obtain ⟨declared, -, h⟩ := Run.bind_eq_ok.1 h
  obtain ⟨inits, hinits, -⟩ := Run.bind_eq_ok.1 h
  obtain ⟨qs, -, hqs⟩ := exists_of_mapM_eq_ok hinits n
    (Graph.mem_reachable.2 ⟨hn, by simpa using hkind⟩)
  exact ⟨qs, hqs⟩

/-- Seeding fails only at a declaration or a first assignment that fails. -/
theorem seedRequests_eq_error
    (h : seedRequests g root allow (Inference.typable g root) = .error fault) :
    (∃ n, g.Below root n ∧ seedNode g (directlyCalled g root) allow n = .error fault) ∨
      ∃ n, g.Below root n ∧ seedInit g n = .error fault := by
  rcases Run.bind_eq_error.1 h with h | ⟨declared, -, h⟩
  · obtain ⟨n, hn, h⟩ := exists_of_mapM_eq_error h
    exact Or.inl ⟨n, (Graph.mem_reachable.1 hn).1, h⟩
  · rcases Run.bind_eq_error.1 h with h | ⟨inits, -, h⟩
    · obtain ⟨n, hn, h⟩ := exists_of_mapM_eq_error h
      exact Or.inr ⟨n, (Graph.mem_reachable.1 hn).1, h⟩
    · cases h

/-- Binding an annotation fails as the annotation does. -/
theorem annotationSet_eq_error {type : NodeId} {f : TypeSet → List Request}
    (h : (do return f (← g.annotationSet type)) = Except.error fault) :
    g.annotationSet type = .error fault := by
  rcases Run.bind_eq_error.1 h with h | ⟨a, -, h⟩
  · exact h
  · cases h

/-- Seeding fails only at a declared type that denotes no set. -/
theorem badType_of_seedRequests (hg : Resolved g root)
    (h : seedRequests g root allow (Inference.typable g root) = .error fault) :
    BadType g root fault := by
  rcases seedRequests_eq_error h with ⟨n, hn, h⟩ | ⟨n, hn, h⟩
  · unfold seedNode at h
    split at h
    · split at h
      · next type htype =>
        exact ⟨n, type, hn, Or.inl htype,
          annotationSet_eq_error (f := fun a => [.widen n a, .narrow n a]) h⟩
      · cases h
    · split at h
      · next type htype =>
        exact ⟨n, type, hn, Or.inl htype, annotationSet_eq_error (f := fun a => [.narrow n a]) h⟩
      · cases h
    · split at h
      · next type htype =>
        obtain ⟨f, hf, hreturn⟩ := List.exists_of_findSome?_eq_some htype
        exact ⟨f, type, hg.below_parent hn hf, Or.inr hreturn,
          annotationSet_eq_error (f := fun a => [.narrow n a]) h⟩
      · cases h
    · split at h <;> cases h
    · cases h
  · unfold seedInit at h
    split at h
    · next target type _ htype =>
      exact ⟨n, type, hn, Or.inl htype,
        annotationSet_eq_error (f := fun a => [.narrow target a]) h⟩
    · cases h

end Seeds

/-- In a resolved program definitions are typable nodes of the program, and no references. -/
theorem defined_typable {g : Graph} {root : NodeId} (hg : Resolved g root) :
    Defined g (Inference.typable g root) := by
  intro n hn d hd
  obtain ⟨hbelow, -⟩ := Graph.mem_reachable.1 hn
  unfold definition? at hd
  split at hd
  · next hkind =>
    obtain ⟨hchild, htypable⟩ := Option.filter_eq_some_iff.1 hd
    obtain ⟨hd, hrefers⟩ := hg.tied n hbelow d hchild
    refine ⟨Graph.mem_reachable.2 ⟨hd, htypable⟩, if_neg fun hreference => ?_⟩
    -- what a reference stands for is a declaration
    rcases hkind with hk | hk <;> rcases hreference with hk' | hk' <;>
      simp [hk, hk', refersTo, isVariable] at hrefers
  · cases hd

/-! ## Declared results -/

/-- A return slot takes the declared type of its function. -/
theorem declaredReturn?_eq {g : Graph} {root f slot type : NodeId} (hg : Resolved g root)
    (hf : g.Below root f) (hslot : g.child? f .returnSlot = some slot)
    (htype : g.child? f .returnType = some type) : declaredReturn? g slot = some type := by
  rw [declaredReturn?, hg.rooted.parents_of_child? hf hslot rfl, List.findSome?_cons, htype]

/-- After seeding, the declared results of functions with return slots denote sets. -/
theorem declared_of_seedRequests {g : Graph} {root : NodeId} {allow : Bool}
    {requests : List Request} (hg : Resolved g root)
    (hslots : ∀ f, g.Below root f → g.kind f = .decl .function → g.hasChild f .returnSlot)
    (h : seedRequests g root allow (Inference.typable g root) = .ok requests) :
    Declared g root := by
  intro f type hf htype
  have hkind := isFunction_of_fits (hg.fits_child hf htype rfl)
  obtain ⟨slot, hslot⟩ := Option.isSome_iff_exists.1 (hslots f hf hkind)
  have hslotk : g.kind slot = .decl .returnSlot := by
    have hfits := hg.fits_child hf hslot rfl
    rw [hkind] at hfits
    exact fits_returnSlot.1 hfits
  obtain ⟨qs, hqs⟩ := succeeds_seedNode h (hg.below_child hf hslot rfl) (by rw [hslotk]; rfl)
  simp only [seedNode, hslotk, declaredReturn?_eq hg hf hslot htype] at hqs
  obtain ⟨a, ha, -⟩ := Run.bind_eq_ok.1 hqs
  exact ⟨a, ha⟩

/-! ## Shuffled programs -/

section Shuffled

variable {g h : Graph} {root : NodeId} {allow : Bool} (hs : Graph.Shuffles g h)
  (hg : Resolved g root)

include hs hg

/-- The same is asked for. -/
theorem mem_seedRequests_iff {requests requests' : List Request} {q : Request}
    (hr : seedRequests g root allow (Inference.typable g root) = .ok requests)
    (hr' : seedRequests h root allow (Inference.typable h root) = .ok requests') :
    q ∈ requests' ↔ q ∈ requests := by
  have hreads := hs.readsAs hg
  rw [mem_seedRequests hr, mem_seedRequests hr']
  simp only [hs.below_iff, hs.kind]
  refine or_congr (exists_congr fun n => and_congr_right fun hn => ?_)
    (exists_congr fun n => and_congr_right fun hn => ?_)
  · rw [seedNode_eq hreads hg hn]
  · rw [seedInit_eq hreads hn]

/-- Seeding fails on both programs or on none. -/
theorem seedRequests_fails {requests : List Request} {fault : Fault}
    (hr : seedRequests g root allow (Inference.typable g root) = .ok requests) :
    seedRequests h root allow (Inference.typable h root) ≠ .error fault := by
  intro hr'
  rcases Run.bind_eq_error.1 hr' with hr' | ⟨declared', -, hr'⟩
  · obtain ⟨n, hn, hfault⟩ := exists_of_mapM_eq_error hr'
    obtain ⟨hbelow, hkind⟩ := Graph.mem_reachable.1 hn
    rw [hs.below_iff] at hbelow
    rw [hs.kind] at hkind
    obtain ⟨qs, hqs⟩ := succeeds_seedNode hr hbelow hkind
    rw [seedNode_eq (hs.readsAs hg) hg hbelow, hqs] at hfault
    cases hfault
  · rcases Run.bind_eq_error.1 hr' with hr' | ⟨inits', -, hr'⟩
    · obtain ⟨n, hn, hfault⟩ := exists_of_mapM_eq_error hr'
      obtain ⟨hbelow, hkind⟩ := Graph.mem_reachable.1 hn
      rw [hs.below_iff] at hbelow
      rw [hs.kind] at hkind
      obtain ⟨qs, hqs⟩ := succeeds_seedInit hr hbelow (by simpa using hkind)
      rw [seedInit_eq (hs.readsAs hg) hbelow, hqs] at hfault
      cases hfault
    · cases hr'

end Shuffled

end Flow

end TypeFlow
