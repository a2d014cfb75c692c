import TypeFlow.Inference
import TypeFlow.Proofs.Flow.Leaves
import TypeFlow.Proofs.Graph.Reach
/-!
# Seeded tables

Binding makes a sound table without knowledge in which every typable node has a slot
(`sound_bindAll`, `isSome_slot?_bindAll`). What declarations ask for lies over every family of
leaves that annotations stay in, so the seeded table is sound and lies over the family too
(`seeded_eq_ok`).
-/

namespace TypeFlow

open TypeSet

/-! ## Annotations -/

section Annotation

variable {g : Graph}

theorem proper_of_argedSet {b : BaseType} {arg a : TypeSet} (h : Graph.argedSet b arg = .ok a) :
    a = .arged b arg ∧ Proper a := by
  unfold Graph.argedSet at h
  split at h
  · next hcheck =>
    obtain rfl := Except.ok.inj h
    exact ⟨rfl, (checkLeaf_eq_ok rfl).1 hcheck⟩
  · cases h

/-- Annotations of bounded depth at closed sites stay in families of leaves that grow with the
depth. -/
theorem over_annotationOver {S : NodeId → Prop} {P : Nat → TypeSet → Prop}
    (hsite : ∀ n m, S n → g.child? n .arg = some m → S m) (hbase : ∀ k b, P (k + 1) (.base b))
    (hcls : ∀ k n m, S n → g.kind n = .type .named → g.child? n .ref = some m → P (k + 1) (.cls m))
    (harg : ∀ k b x, P k x → P (k + 1) (.arged b x)) :
    ∀ {k : Nat} {n : NodeId} {a : TypeSet}, S n → g.annotationOver k n = .ok a → Over (P k) a
  | 0, n, a, _, h => by cases h
  | k + 1, n, a, hn, h => by
    rw [Graph.annotationOver] at h
    split at h
    · obtain rfl := Except.ok.inj h
      exact Proper.over trivial (hbase k _)
    · obtain ⟨m, -, h⟩ := Run.bind_eq_ok.1 h
      obtain ⟨b, -, h⟩ := Run.bind_eq_ok.1 h
      obtain ⟨m', hm', h⟩ := Run.bind_eq_ok.1 h
      obtain ⟨x, hx, h⟩ := Run.bind_eq_ok.1 h
      obtain ⟨rfl, hproper⟩ := proper_of_argedSet h
      have hsite' := hsite n m' hn (Graph.requireChild_eq_ok.1 hm')
      have hover := over_annotationOver hsite hbase hcls harg hsite' hx
      have hPx : P k x := hover.2 hproper.2.ne_univ x (by simp [hproper.2.leaves])
      exact Proper.over hproper (harg k b x hPx)
    · next hkind =>
      obtain ⟨m, hm, h⟩ := Run.bind_eq_ok.1 h
      obtain rfl := Run.pure_eq_ok.1 h
      exact Proper.over trivial (hcls k n m hn hkind (Graph.requireChild_eq_ok.1 hm))
    · obtain rfl := Except.ok.inj h
      exact over_univ
    · obtain rfl := Except.ok.inj h
      exact over_empty
    · cases h

/-- Annotations denote canonical sets. -/
theorem canonical_annotationSet {n : NodeId} {a : TypeSet} (h : g.annotationSet n = .ok a) :
    a.Canonical :=
  (over_annotationOver (S := fun _ => True) (P := fun _ _ => True) (fun _ _ _ _ => trivial)
    (fun _ _ => trivial) (fun _ _ _ _ _ _ => trivial) (fun _ _ _ _ => trivial) trivial h).1

/-- The family of all leaves, at all sites. -/
theorem leafFamily_true (g : Graph) : LeafFamily g (fun _ => True) fun _ => True where
  base _ := trivial
  arg _ _ _ := trivial
  created _ _ _ _ _ := trivial
  enclosing _ _ _ _ := trivial
  declared _ _ _ _ _ h := ⟨canonical_annotationSet h, fun _ _ _ => trivial⟩
  returned _ _ _ _ _ h := ⟨canonical_annotationSet h, fun _ _ _ => trivial⟩
  called _ _ _ _ _ := trivial
  parent _ _ _ _ := trivial
  member _ _ _ _ := trivial

end Annotation

/-! ## Binding -/

namespace BoundsTable

variable {t : BoundsTable} {n m : NodeId} {s : Slot}

/-- Nothing is known yet. -/
def Blank (t : BoundsTable) : Prop := ∀ s, t.get s = .initial

theorem Blank.fresh (ht : t.Blank) (n : NodeId) : (t.fresh n).Blank := fun s => by
  rw [get_fresh]
  exact ht s

/-- A table without knowledge in which nodes are bound to slots that were made. -/
structure Bound (t : BoundsTable) : Prop where
  blank : t.Blank
  made : ∀ n s, t.slot? n = some s → s.index < t.size

theorem Bound.sound (ht : t.Bound) : t.Sound where
  canonical s := by
    rw [ht.blank s]
    exact Bounds.canonical_initial
  made := ht.made

theorem Bound.blank_at (ht : t.Bound) (n : NodeId) :
    t.shown n = .empty ∧ t.permitted n = .univ := by
  cases hslot : t.slot? n with
  | none => exact ⟨shown_of_unbound hslot, permitted_of_unbound hslot⟩
  | some s =>
    rw [shown_of_slot? hslot, permitted_of_slot? hslot, ht.blank s]
    exact ⟨rfl, rfl⟩

theorem Bound.fresh (ht : t.Bound) (n : NodeId) : (t.fresh n).Bound where
  blank := ht.blank.fresh n
  made := (ht.sound.fresh n).made

theorem Bound.share (ht : t.Bound) (hs : s.index < t.size) (n : NodeId) : (t.share n s).Bound where
  blank := ht.blank
  made := (ht.sound.share hs n).made

theorem bound_empty : empty.Bound where
  blank := get_empty
  made := sound_empty.made

end BoundsTable

namespace Flow

variable {g : Graph} {t : BoundsTable} {n m : NodeId}

open BoundsTable

theorem bound_bindReference (ht : t.Bound) (n : NodeId) : (bindReference g t n).Bound := by
  unfold bindReference
  split
  · exact ht
  · split
    · next hs => exact ht.share (ht.made _ _ hs) n
    · exact ht.fresh n

theorem bound_foldl {step : BoundsTable → NodeId → BoundsTable}
    (hstep : ∀ t n, t.Bound → (step t n).Bound) : ∀ (ns : List NodeId) {t : BoundsTable},
    t.Bound → (ns.foldl step t).Bound
  | [], _, ht => ht
  | n :: ns, _, ht => bound_foldl hstep ns (hstep _ n ht)

theorem bound_bindAll (g : Graph) (nodes : List NodeId) : (bindAll g nodes).Bound :=
  bound_foldl (fun _ n ht => bound_bindReference ht n) nodes
    (bound_foldl (fun _ n ht => ht.fresh n) _ bound_empty)

/-- Steps that bind the node they are for and unbind none bind every node of a list. -/
theorem isSome_slot?_foldl {step : BoundsTable → NodeId → BoundsTable}
    (hkeep : ∀ t n m, (t.slot? m).isSome → ((step t n).slot? m).isSome) :
    ∀ (ns : List NodeId) (t : BoundsTable),
      ((t.slot? m).isSome → ((ns.foldl step t).slot? m).isSome) ∧
      (m ∈ ns → (∀ t, ((step t m).slot? m).isSome) → ((ns.foldl step t).slot? m).isSome)
  | [], t => ⟨id, nofun⟩
  | n :: ns, t => by
    obtain ⟨hrest, hmem⟩ := isSome_slot?_foldl hkeep ns (step t n)
    refine ⟨fun h => hrest (hkeep t n m h), fun hm hbind => ?_⟩
    rcases List.mem_cons.1 hm with rfl | hm
    · exact hrest (hbind t)
    · exact hmem hm hbind

theorem isSome_slot?_bindReference (h : (t.slot? m).isSome) :
    ((bindReference g t n).slot? m).isSome := by
  unfold bindReference
  split
  · exact h
  · split
    · rw [slot?_share]
      split <;> simp [h]
    · rw [slot?_fresh]
      split <;> simp [h]

/-- Every typable node has a slot. -/
theorem isSome_slot?_bindAll {nodes : List NodeId} (hn : n ∈ nodes) :
    ((bindAll g nodes).slot? n).isSome := by
  have hkeep : ∀ t n m, (slot? t m).isSome → ((bindReference g t n).slot? m).isSome :=
    fun _ _ _ h => isSome_slot?_bindReference h
  have hkeep' : ∀ (t : BoundsTable) n m, (t.slot? m).isSome → ((t.fresh n).slot? m).isSome := by
    intro t n m h
    rw [slot?_fresh]
    split <;> simp [h]
  cases hd : definition? g n with
  | none =>
    refine (isSome_slot?_foldl hkeep nodes _).1 ((isSome_slot?_foldl hkeep' _ _).2 ?_ fun t => ?_)
    · simpa [hd] using hn
    · simp [slot?_fresh]
  | some d =>
    refine (isSome_slot?_foldl hkeep nodes _).2 hn fun t => ?_
    unfold bindReference
    simp only [hd]
    split
    · simp [slot?_share]
    · simp [slot?_fresh]

/-! ## What declarations ask for -/

section Seeds

variable {S : NodeId → Prop} {P : TypeSet → Prop} {requests : List Request}

theorem over_seedNode (hP : LeafFamily g S P) (hn : S n) {called : List NodeId} {allow : Bool}
    (h : seedNode g called allow n = .ok requests) : RequestsOver P requests := by
  unfold seedNode at h
  split at h
  · split at h
    · next type htype =>
      obtain ⟨a, ha, h⟩ := Run.bind_eq_ok.1 h
      obtain rfl := Run.pure_eq_ok.1 h
      have hover := hP.declared n type a hn htype ha
      exact (requestsOver_widen hover).append (requestsOver_narrow hover)
    · obtain rfl := Except.ok.inj h
      split
      · unfold seedUndeclared
        split
        · split
          · exact requestsOver_nil
          · exact requestsOver_widen over_univ
        · exact requestsOver_nil
      · exact requestsOver_nil
  · split at h
    · next type htype =>
      obtain ⟨a, ha, h⟩ := Run.bind_eq_ok.1 h
      obtain rfl := Run.pure_eq_ok.1 h
      exact requestsOver_narrow (hP.declared n type a hn htype ha)
    · obtain rfl := Except.ok.inj h
      exact requestsOver_nil
  · split at h
    · next type htype =>
      obtain ⟨a, ha, h⟩ := Run.bind_eq_ok.1 h
      obtain rfl := Run.pure_eq_ok.1 h
      obtain ⟨f, hf, htype⟩ := List.exists_of_findSome?_eq_some htype
      exact requestsOver_narrow (hP.returned f type a (hP.parent n f hn hf) htype ha)
    · obtain rfl := Except.ok.inj h
      exact requestsOver_nil
  · split at h
    · obtain rfl := Except.ok.inj h
      exact requestsOver_widen over_univ
    · obtain rfl := Except.ok.inj h
      exact requestsOver_nil
  · obtain rfl := Except.ok.inj h
    exact requestsOver_nil

theorem over_seedInit (hP : LeafFamily g S P) (hn : S n) (h : seedInit g n = .ok requests) :
    RequestsOver P requests := by
  unfold seedInit at h
  split at h
  · next htype =>
    obtain ⟨a, ha, h⟩ := Run.bind_eq_ok.1 h
    obtain rfl := Run.pure_eq_ok.1 h
    exact requestsOver_narrow (hP.declared n _ a hn htype ha)
  · obtain rfl := Except.ok.inj h
    exact requestsOver_nil

theorem over_seedRequests (hP : LeafFamily g S P) {root : NodeId} {allow : Bool}
    {nodes : List NodeId} (hnodes : ∀ n ∈ nodes, S n) (hroot : ∀ n, g.Below root n → S n)
    (h : seedRequests g root allow nodes = .ok requests) : RequestsOver P requests := by
  obtain ⟨declared, hdeclared, h⟩ := Run.bind_eq_ok.1 h
  obtain ⟨inits, hinits, h⟩ := Run.bind_eq_ok.1 h
  obtain rfl := Run.pure_eq_ok.1 h
  intro q hq
  rcases List.mem_append.1 hq with hq | hq
  · obtain ⟨qs, hqs, hq⟩ := List.mem_flatten.1 hq
    obtain ⟨n, hmem, hn⟩ := mem_of_mapM_eq_ok hdeclared qs hqs
    exact over_seedNode hP (hnodes n hmem) hn q hq
  · obtain ⟨qs, hqs, hq⟩ := List.mem_flatten.1 hq
    obtain ⟨n, hmem, hn⟩ := mem_of_mapM_eq_ok hinits qs hqs
    exact over_seedInit hP (hroot n (Graph.mem_reachable.1 hmem).1) hn q hq

end Seeds

end Flow

/-! ## The seeded table -/

namespace BoundsTable

variable {t : BoundsTable} {P : TypeSet → Prop}

theorem Bound.over (ht : t.Bound) : t.Over P := fun s => by
  rw [ht.blank s]
  exact ⟨over_empty, over_univ⟩

end BoundsTable

namespace Inference

variable {g : Graph} {root : NodeId} {allow : Bool}

/-- Seeding fails only if a declaration cannot be read, and its table is the result of an update
of the blank one. -/
theorem seeded_eq (g : Graph) (root : NodeId) (allow : Bool) : seeded g root allow =
    (Flow.seedRequests g root allow (typable g root)).map fun requests =>
      (Update.ofRequests (Flow.bindAll g (typable g root)) requests).result
        (Flow.bindAll g (typable g root)) := by
  cases h : Flow.seedRequests g root allow (typable g root) with
  | error fault =>
    simp only [seeded, h, Run.error_bind]
    rfl
  | ok requests =>
    have hover := Flow.over_seedRequests (leafFamily_true g) (fun _ _ => trivial)
      (fun _ _ => trivial) h
    have hsound := (Flow.bound_bindAll g (typable g root)).sound
    obtain ⟨⟨k, hk⟩, -⟩ := Update.run_apply hsound
      (Update.fits_ofRequests hsound fun q hq => (hover q hq).1)
    simp only [seeded, h, Run.ok_bind, hk]
    rfl

theorem seeded_eq_ok {t : BoundsTable} : seeded g root allow = .ok t ↔ ∃ requests,
    Flow.seedRequests g root allow (typable g root) = .ok requests ∧
      t = (Update.ofRequests (Flow.bindAll g (typable g root)) requests).result
        (Flow.bindAll g (typable g root)) := by
  rw [seeded_eq]
  cases Flow.seedRequests g root allow (typable g root) <;> simp [Except.map, eq_comm]

theorem seeded_eq_error {fault : Fault} : seeded g root allow = .error fault ↔
    Flow.seedRequests g root allow (typable g root) = .error fault := by
  rw [seeded_eq]
  cases Flow.seedRequests g root allow (typable g root) <;> simp [Except.map]

end Inference

end TypeFlow
